import MarkupPairs.Proofs.BracketWalk
import MarkupPairs.Proofs.Commit
import MarkupPairs.Proofs.PartnerReturn
import MarkupPairs.Proofs.PooledDeletions
import MarkupPairs.Proofs.SelectedRange
import MarkupPairs.Session.Command

/-!
# Deleting selections together with partners

The deletion takes the characters that are selected and those of the partners of the tags and
brackets among them. A selection that its partners touch grows by them, and what stays apart is
deleted line by line; neither takes more than blanks and semicolons of lines that nothing else would
be left of, and line breaks.
-/

namespace MarkupPairs

/-- Whether a selection takes the character at a position by itself: one between its ends, or for a
caret the one under it on its line. -/
def Selection.Takes (selection : Selection) (d : Document) (p : Position) : Prop :=
  if selection.isEmpty then p = selection.active ∧ (d.charAt p).isSome
  else selection.range.covers p

namespace Session

/-- The ranges that go along with a selection: the partners of the tags within it and of the
brackets that it takes. -/
inductive IsPartner (s : Session) (selection : Selection) : Range → Prop where
  | tag {t u : Tag} (within : t ∈ s.document.tagsIn selection.range)
      (partner : s.document.partner? s.settings.limits t = some u) : IsPartner s selection u.range
  | bracket {p q : Position} {c : Char} {b : BracketAt} (taken : selection.Takes s.document p)
      (char : s.document.charAt p = some c) (bracket : BracketAt.classify c p = some b)
      (partner : s.document.bracketPartner? b = some q) :
      IsPartner s selection (Range.between q (q.right 1))

/-- Whether every selection lies within the document. -/
def IsValid (s : Session) : Prop :=
  ∀ selection ∈ s.selections,
    s.document.isValid selection.anchor ∧ s.document.isValid selection.active

instance (s : Session) : Decidable s.IsValid := List.decidableBAll _ s.selections

/-- Whether one of the selections takes the character at a position. -/
def IsSelected (s : Session) (p : Position) : Prop :=
  ∃ selection ∈ s.selections, selection.Takes s.document p

/-- Whether a position lies on a partner that goes along with one of the selections. -/
def OnPartner (s : Session) (p : Position) : Prop :=
  ∃ selection ∈ s.selections, ∃ r, s.IsPartner selection r ∧ r.covers p

end Session

/-! ## What a selection takes by itself -/

/-- A selection that is not empty takes what is in its range. -/
theorem Selection.takes_iff {selection : Selection} {d : Document} {p : Position}
    (h : selection.anchor ≠ selection.active) :
    selection.Takes d p ↔ selection.range.covers p := by
  have hsome : ¬selection.isEmpty := by simpa [Selection.isEmpty] using h
  rw [Takes, if_neg hsome]

theorem Selection.takes_start {selection : Selection} {d : Document}
    (h : selection.anchor ≠ selection.active) : selection.Takes d selection.range.start := by
  rw [takes_iff h, Range.covers_iff]
  refine ⟨Position.le_refl _, Position.not_le.mp fun hle => h ?_⟩
  rw [range, Range.between] at hle
  split at hle
  next hforward => exact Position.le_antisymm hforward hle
  next hbackward => exact absurd hle hbackward

namespace Document

variable {d : Document} {r : Range} {t : Tag} {p q : Position} {c : Char} {b : BracketAt}

theorem isSome_charAt : (d.charAt p).isSome ↔ p.character < d.lineLength p.line := by
  simp [charAt, lineLength]

/-- A tag has two characters at least. -/
theorem exists_covers_of_mem_tagsIn (h : t ∈ d.tagsIn r) :
    ∃ p q, p < q ∧ r.covers p ∧ r.covers q := by
  obtain ⟨pre, inner, post, hwritten⟩ := exists_writtenIn_of_mem_tagsIn h
  obtain ⟨hstart, hstop⟩ := Range.contains_iff.mp (contains_of_mem_tagsIn h)
  have hlt : t.range.start < (t.range.start.after '<').afterText inner :=
    Position.lt_of_lt_of_le (Position.lt_after _ _) (Position.le_afterText _ _)
  have hclose : (t.range.start.after '<').afterText inner < r.stop := by
    apply Position.lt_of_lt_of_le (Position.lt_after _ '>')
    rw [← Text.afterText_angled, ← hwritten.stop_eq]
    exact hstop
  refine ⟨_, _, hlt, Range.covers_iff.mpr ⟨hstart, Position.lt_of_lt_of_le hlt ?_⟩,
    Range.covers_iff.mpr ⟨Position.le_trans hstart (Position.le_of_lt hlt), hclose⟩⟩
  exact Position.le_of_lt hclose

theorem mem_bracketsIn : b ∈ d.bracketsIn r ↔
    ∃ p c, r.covers p ∧ d.charAt p = some c ∧ BracketAt.classify c p = some b := by
  rw [bracketsIn, List.mem_filterMap]
  constructor
  · rintro ⟨⟨c, i⟩, hchar, hb⟩
    obtain ⟨front, behind, hdiv, hfrom, hto⟩ :=
      exists_dividedAt_of_mem_slice (List.mem_zipIdx_iff_getElem?.mp hchar)
    have hc : c ≠ '\n' := by
      rintro rfl
      cases hb
    have hat := hdiv.charAt_cons hc
    refine ⟨_, c, (covers_iff_offsetAt hat).mpr ?_, hat, hb⟩
    rw [hdiv.offsetAt]
    exact ⟨hfrom, hto⟩
  · rintro ⟨p, c, hcovers, hat, hb⟩
    obtain ⟨-, front, behind, hdiv⟩ := exists_dividedAt_of_charAt hat
    obtain ⟨hfrom, hto⟩ := (covers_iff_offsetAt hat).mp hcovers
    rw [hdiv.offsetAt] at hfrom hto
    refine ⟨(c, front.length - d.offsetAt r.start), ?_, ?_⟩
    · exact List.mem_zipIdx_iff_getElem?.mpr (getElem?_slice hdiv hfrom hto)
    · dsimp only
      rw [Nat.add_sub_cancel' hfrom, hdiv.positionAt]
      exact hb

end Document

namespace Document

variable {d : Document} {q : Position} {b : BracketAt} {limits : ScanLimits} {t u : Tag}

theorem isValid_of_bracketPartner? (h : d.bracketPartner? b = some q) :
    d.isValid q ∧ d.isValid (q.right 1) := by
  obtain ⟨-, pre, post, hdiv⟩ := exists_dividedAt_of_charAt (charAt_of_bracketPartner? h)
  have hnext : d.isValid (q.after b.partnerChar) := hdiv.next.isValid
  have hright : q.after b.partnerChar = q.right 1 :=
    Position.after_of_ne (b.bracket.char_ne_lineFeed _)
  exact ⟨hdiv.isValid, hright ▸ hnext⟩

theorem isValid_of_partner? (h : d.partner? limits t = some u) :
    d.isValid u.range.start ∧ d.isValid u.range.stop := by
  obtain ⟨pre, x, post, htext, hrange⟩ := exists_angled_of_partner? h
  have hdiv : d.DividedAt (Position.origin.afterText pre) pre (x.angled ++ post) := ⟨htext, rfl⟩
  rw [hrange]
  exact ⟨hdiv.isValid, hdiv.append.isValid⟩

end Document

namespace Session

variable {s : Session} {selection : Selection} {d : Document} {r : Range} {p : Position}

theorem covers_selectedRange :
    (selectedRange d selection).covers p ↔ selection.Takes d p := by
  by_cases hempty : selection.isEmpty
  · have hle : selection.active ≤ selection.active.withCharacter
        (max (min (selection.active.character + 1) (d.lineLength selection.active.line))
          selection.active.character) := .inr ⟨rfl, Nat.le_max_right _ _⟩
    simp only [selectedRange, Selection.Takes, if_pos hempty]
    rw [Range.between_of_le hle, Range.covers_iff, Document.isSome_charAt, Position.ext_iff']
    -- the line of the caret has one length, which omega has to be told
    have hsame : p.line = selection.active.line →
        d.lineLength p.line = d.lineLength selection.active.line := fun h => h ▸ rfl
    simp only [Position.le_def, Position.lt_def, Position.withCharacter]
    omega
  · simp only [selectedRange, Selection.Takes, if_neg hempty]

/-- No tag fits under a caret. -/
theorem mem_tagsIn_selectedRange {t : Tag} :
    t ∈ d.tagsIn (selectedRange d selection) ↔ t ∈ d.tagsIn selection.range := by
  by_cases hempty : selection.isEmpty
  · refine iff_of_false ?_ ?_
    · intro ht
      obtain ⟨p, q, hlt, hp, hq⟩ := Document.exists_covers_of_mem_tagsIn ht
      rw [covers_selectedRange, Selection.Takes, if_pos hempty] at hp hq
      exact Position.lt_irrefl p (by rwa [hq.1, ← hp.1] at hlt)
    · intro ht
      obtain ⟨p, q, hlt, hp, hq⟩ := Document.exists_covers_of_mem_tagsIn ht
      have heq : selection.anchor = selection.active := by simpa [Selection.isEmpty] using hempty
      rw [Range.covers_of_isEmpty] at hp
      · cases hp
      · simp [Selection.range, heq, Range.between_of_le (Position.le_refl _), Range.isEmpty]
  · simp only [selectedRange, if_neg hempty]

theorem isValid_selectedRange (hanchor : d.isValid selection.anchor)
    (hactive : d.isValid selection.active) :
    d.isValid (selectedRange d selection).start ∧ d.isValid (selectedRange d selection).stop := by
  rw [selectedRange]
  split
  · apply Range.ends_between (P := (d.isValid ·)) hactive
    rw [Document.isValid_iff] at hactive ⊢
    refine ⟨hactive.1, ?_⟩
    simp only [Position.withCharacter]
    omega
  · exact Selection.isValid_range hanchor hactive

/-! ## The partners -/

/-- The search for partners lists them all. -/
theorem exists_partnersOf_eq (s : Session) (selection : Selection) :
    ∃ partners, s.partnersOf (selectedRange s.document selection) = .ofList partners ∧
      ∀ r, r ∈ partners ↔ s.IsPartner selection r := by
  refine ⟨_, rfl, fun r => ?_⟩
  constructor
  · intro hr
    rcases List.mem_append.mp hr with hr | hr
    · obtain ⟨u, hu, rfl⟩ := List.mem_map.mp hr
      obtain ⟨t, ht, hpartner⟩ := List.mem_filterMap.mp hu
      exact .tag (mem_tagsIn_selectedRange.mp ht) hpartner
    · obtain ⟨q, hq, rfl⟩ := List.mem_map.mp hr
      obtain ⟨b, hb, hpartner⟩ := List.mem_filterMap.mp hq
      obtain ⟨p, c, htaken, hchar, hclass⟩ := Document.mem_bracketsIn.mp hb
      exact .bracket (covers_selectedRange.mp htaken) hchar hclass hpartner
  · rintro (⟨within, partner⟩ | ⟨taken, char, bracket, partner⟩)
    · apply List.mem_append_left
      apply List.mem_map_of_mem
      exact List.mem_filterMap.mpr ⟨_, mem_tagsIn_selectedRange.mpr within, partner⟩
    · apply List.mem_append_right
      refine List.mem_map.mpr ⟨_, List.mem_filterMap.mpr ⟨_, ?_, partner⟩, rfl⟩
      exact Document.mem_bracketsIn.mpr ⟨_, _, covers_selectedRange.mpr taken, char, bracket⟩

/-- The partners of what a selection takes have valid ends. -/
theorem IsPartner.isValid (h : s.IsPartner selection r) :
    s.document.isValid r.start ∧ s.document.isValid r.stop := by
  cases h with
  | tag within partner => exact Document.isValid_of_partner? partner
  | bracket taken char bracket partner =>
      rw [Range.between_of_le (Position.le_of_lt (Position.lt_right_one.mpr (Position.le_refl _)))]
      exact Document.isValid_of_bracketPartner? partner

/-! ## What a selection reaches -/

section TakeIn

variable {partners : List Range} {P : Position → Prop}

/-- Partners that are taken in are covered no more and no less than before. -/
theorem covers_takeIn (r : Range) (partners : List Range) (p : Position) :
    ((takeIn r partners).1.covers p || (takeIn r partners).2.any (·.covers p)) =
      (r.covers p || partners.any (·.covers p)) := by
  induction partners generalizing r with
  | nil => rfl
  | cons partner rest ih =>
      rw [takeIn, List.any_cons]
      split
      next hcontains =>
        have hinside : (r.covers p || partner.covers p) = r.covers p := by
          rw [Bool.or_eq_left_iff_imp]
          exact Range.covers_of_contains hcontains
        rw [ih, ← Bool.or_assoc, hinside]
      next =>
        split
        next hmeet => rw [ih, Range.covers_union hmeet, Bool.or_assoc]
        next =>
          change (_ || (_ :: _).any _) = _
          rw [List.any_cons, Bool.or_left_comm, ih, Bool.or_left_comm]

theorem covers_takeIn_of_covers (h : r.covers p) : (takeIn r partners).1.covers p := by
  induction partners generalizing r with
  | nil => exact h
  | cons partner rest ih =>
      rw [takeIn]
      split
      next => exact ih h
      next =>
        split
        next hmeet =>
          apply ih
          rw [Range.covers_union hmeet, h, Bool.true_or]
        next => exact ih h

/-- The ends of what comes out are ends of what went in. -/
theorem allEnds_takeIn (hr : P r.start ∧ P r.stop) (hpartners : RangeSet.AllEnds P partners) :
    (P (takeIn r partners).1.start ∧ P (takeIn r partners).1.stop) ∧
      RangeSet.AllEnds P (takeIn r partners).2 := by
  induction partners generalizing r with
  | nil => exact ⟨hr, hpartners⟩
  | cons partner rest ih =>
      obtain ⟨hpartner, hrest⟩ := RangeSet.allEnds_cons.mp hpartners
      rw [takeIn]
      split
      next => exact ih hr hrest
      next =>
        split
        next => exact ih (Range.ends_union hr hpartner) hrest
        next =>
          obtain ⟨hgrown, hapart⟩ := ih hr hrest
          exact ⟨hgrown, RangeSet.allEnds_cons.mpr ⟨hpartner, hapart⟩⟩

end TakeIn

/-- A selection with the partners that it reaches, and the partners that stay apart from it. -/
def reach (s : Session) (selection : Selection) : Range × List Range :=
  takeIn (selectedRange s.document selection)
    (s.partnersOf (selectedRange s.document selection)).ranges

/-- The partners that stay apart, selection by selection. -/
def apart (s : Session) : List (List Range) :=
  s.selections.map fun selection => (s.reach selection).2

/-- The selection and the partners that it reaches or that stay apart are all there is to it. -/
theorem covers_reach : (s.reach selection).1.covers p ∨ (∃ e ∈ (s.reach selection).2, e.covers p) ↔
    selection.Takes s.document p ∨ ∃ r, s.IsPartner selection r ∧ r.covers p := by
  obtain ⟨partners, hpartners, hmem⟩ := s.exists_partnersOf_eq selection
  have hcovers := covers_takeIn (selectedRange s.document selection)
    (s.partnersOf (selectedRange s.document selection)).ranges p
  rw [← RangeSet.covers, hpartners, RangeSet.covers_ofList, ← hpartners, ← reach, Bool.eq_iff_iff,
    Bool.or_eq_true, Bool.or_eq_true, List.any_eq_true, List.any_eq_true,
    covers_selectedRange] at hcovers
  simp only [hcovers, hmem]

theorem covers_reach_of_takes (h : selection.Takes s.document p) :
    (s.reach selection).1.covers p := covers_takeIn_of_covers (covers_selectedRange.mpr h)

theorem isValid_reach (hanchor : s.document.isValid selection.anchor)
    (hactive : s.document.isValid selection.active) :
    (s.document.isValid (s.reach selection).1.start ∧
      s.document.isValid (s.reach selection).1.stop) ∧
    RangeSet.AllEnds (s.document.isValid ·) (s.reach selection).2 := by
  have hpartners : RangeSet.AllEnds (s.document.isValid ·)
      (s.partnersOf (selectedRange s.document selection)).ranges := by
    obtain ⟨partners, hpartners, hmem⟩ := s.exists_partnersOf_eq selection
    rw [hpartners]
    apply RangeSet.allEnds_insertAll
    · intro r hr
      exact ((hmem r).mp hr).isValid
    · simp [RangeSet.empty, RangeSet.AllEnds]
  exact allEnds_takeIn (P := (s.document.isValid ·)) (isValid_selectedRange hanchor hactive)
    hpartners

/-! ## Line breaks -/

/-- A range of complete lines with a line break, and any other range as it is. -/
def widened (d : Document) (r : Range) : Range :=
  if (d.shape r).isBlock then withLineBreak d r else r

/-- Complete lines go with the same line break as lines that are dropped. -/
theorem withLineBreak_eq (h : (d.shape r).isBlock) :
    withLineBreak d r = LineDeletion.runRange d r.start.line r.stop.line := by
  obtain ⟨hstart, hstop⟩ := Document.ends_of_isBlock h
  rw [withLineBreak, LineDeletion.runRange]
  split
  next => rw [Range.withStop, ← hstart]
  next =>
    split
    next hline =>
      rw [hline] at hstart
      rw [hline, if_neg (Nat.lt_irrefl 0), ← hstart, ← hstop, Range.between_of_le r.start_le_stop]
    next previous hline =>
      rw [hline, if_pos (Nat.succ_pos previous), ← hstop]
      rfl

theorem isValid_widened (h : d.isValid r.start ∧ d.isValid r.stop) :
    d.isValid (widened d r).start ∧ d.isValid (widened d r).stop := by
  rw [widened]
  split
  next hblock =>
    rw [withLineBreak_eq hblock]
    exact LineDeletion.isValid_runRange r.line_le_line (Document.isValid_iff.mp h.2).1
  next => exact h

theorem covers_widened_of_covers (h : r.covers p) : (widened d r).covers p := by
  rw [widened]
  split
  next hblock =>
    obtain ⟨hstart, hstop⟩ := Document.ends_of_isBlock hblock
    obtain ⟨hstart', hstop'⟩ := LineDeletion.runRange_ends (d := d) r.line_le_line
    obtain ⟨hle, hlt⟩ := Range.covers_iff.mp h
    rw [withLineBreak_eq hblock, Range.covers_iff, hstart', hstop', ← hstop]
    constructor
    · apply Position.le_trans _ hle
      split
      next => exact Position.le_of_eq hstart.symm
      next hzero =>
        apply Position.le_of_lt
        rw [Position.lt_def]
        simp only [Document.lineStop]
        omega
    · apply Position.lt_of_lt_of_le hlt
      split
      next => exact .inl (Nat.lt_succ_self _)
      next => exact Position.le_refl _
  next => exact h

/-- All that a line break adds to a range is a line feed right behind it or right before it. -/
theorem cases_of_covers_widened {cell : Cell} (hcell : cell ∈ d.cells)
    (hstop : d.isValid r.stop) (h : (widened d r).covers cell.position) :
    r.covers cell.position ∨ cell.char = '\n' ∧
      (cell.position = r.stop ∨ cell.position.after '\n' = r.start) := by
  rw [widened] at h
  split at h
  next hblock =>
    obtain ⟨hstart, hend⟩ := Document.ends_of_isBlock hblock
    have hline := Document.line_lt_of_mem_cells hcell
    have hlast := (Document.isValid_iff.mp hstop).1
    rw [withLineBreak_eq hblock] at h
    rcases Document.cases_of_mem_cells hcell with ⟨-, -, hlt⟩ | ⟨hfeed, hposition, hnext⟩
    · left
      have hlines := (LineDeletion.covers_runRange_character r.line_le_line hlt hline).mp h
      rw [Range.covers_iff, hstart, hend]
      have hsame : cell.position.line = r.stop.line →
          d.lineLength cell.position.line = d.lineLength r.stop.line := fun heq => heq ▸ rfl
      simp only [Position.le_def, Position.lt_def, Document.lineStop]
      omega
    · rw [hposition, LineDeletion.covers_runRange_lineFeed r.line_le_line hlast hnext] at h
      by_cases hbehind : cell.position.line = r.stop.line
      · exact .inr ⟨hfeed, .inl (by rw [hposition, hbehind, ← hend])⟩
      · by_cases hbefore : cell.position.line + 1 = r.start.line
        · right
          refine ⟨hfeed, .inr ?_⟩
          rw [Position.after, if_pos rfl, hbefore, ← hstart]
        · left
          rw [Range.covers_iff, hstart, hend]
          simp only [Position.le_def, Position.lt_def, Document.lineStop]
          omega
  next => exact .inl h

/-! ## All selections together -/

/-- The ranges that the deletion takes out of the text. -/
def removed (s : Session) : RangeSet :=
  let d := s.document
  let reached := s.selections.map fun selection => widened d (s.reach selection).1
  let planned := (d.deletionPlan (d.pooledDeletions s.apart)).edits.map Edit.range
  .ofList (reached ++ planned)

theorem covers_removed : s.removed.covers p ↔
    (∃ selection ∈ s.selections, (widened s.document (s.reach selection).1).covers p) ∨
      (s.document.deletedRanges (s.document.pooledDeletions s.apart)).covers p := by
  have hplanned (rs : List Range) :
      ((EditPlan.deleteAll rs).edits.map Edit.range).any (·.covers p) = rs.any (·.covers p) := by
    rw [EditPlan.edits_deleteAll, List.map_map, List.any_map, List.any_filter]
    refine List.any_congr rfl fun r => ?_
    by_cases hempty : r.isEmpty
    · simp [Range.covers_of_isEmpty hempty]
    · simp [hempty]
  rw [removed, RangeSet.covers_ofList, List.any_append, Document.deletionPlan, hplanned,
    Bool.or_eq_true, List.any_map, List.any_eq_true]
  rfl

theorem allEnds_apart (hvalid : s.IsValid) :
    ∀ ranges ∈ s.apart, RangeSet.AllEnds (s.document.isValid ·) ranges := by
  intro ranges hranges
  obtain ⟨selection, hselection, rfl⟩ := List.mem_map.mp hranges
  obtain ⟨hanchor, hactive⟩ := hvalid selection hselection
  exact (isValid_reach hanchor hactive).2

theorem allEnds_removed (hvalid : s.IsValid) :
    RangeSet.AllEnds (s.document.isValid ·) s.removed.ranges := by
  apply RangeSet.allEnds_insertAll
  · intro r hr
    rcases List.mem_append.mp hr with hr | hr
    · obtain ⟨selection, hselection, rfl⟩ := List.mem_map.mp hr
      obtain ⟨hanchor, hactive⟩ := hvalid selection hselection
      exact isValid_widened (isValid_reach hanchor hactive).1
    · rw [Document.deletionPlan, EditPlan.edits_deleteAll, List.map_map] at hr
      obtain ⟨e, he, rfl⟩ := List.mem_map.mp hr
      exact Document.allEnds_pooled (allEnds_apart hvalid) e (List.mem_filter.mp he).1
  · simp [RangeSet.empty, RangeSet.AllEnds]

theorem exists_deleteSelectionWithPairs_eq (s : Session) :
    ∃ targets, deleteSelectionWithPairs.result s =
      ((commit (EditPlan.deleteAll s.removed.ranges) targets).result s).map fun (count, after) =>
        (.applied count false, after) := by
  refine ⟨[.place (s.document.offsetAt (((s.selections.map fun selection =>
    widened s.document (s.reach selection).1).head?.map Range.start).getD .origin)) 0], ?_⟩
  rw [result_deleteSelectionWithPairs, removed, Document.pooledDeletions, apart, List.flatMap_map]
  simp only [List.map_map, List.flatMap_map]
  rfl

theorem exists_execute_deleteSelectionWithPairs (hsome : s.selections ≠ [])
    (hvalid : s.IsValid) :
    ∃ count after, s.execute .deleteSelectionWithPairs = .ok (.applied count false, after) ∧
      after.document = ⟨Cell.keptText s.removed.ranges s.document.cells, s.document.ending⟩ := by
  obtain ⟨targets, hdelete⟩ := s.exists_deleteSelectionWithPairs_eq
  obtain ⟨count, after, hcommit, hafter⟩ :=
    s.exists_commit_deleteAll (allEnds_removed hvalid) targets
  refine ⟨count, after, ?_, hafter⟩
  rw [execute_of_ne_nil hsome, action, hdelete, hcommit]
  rfl

/-! ## Which characters go -/

/-- Why the deletion takes a character on account of a selection. -/
inductive Removal (s : Session) (selection : Selection) (cell : Cell) : Prop where
  /-- The selection takes it, grown by the partners that it reaches. -/
  | reached (covers : (s.reach selection).1.covers cell.position)
  /-- It is the line break that goes with complete lines. -/
  | lineBreak (char : cell.char = '\n')
      (beside : cell.position = (s.reach selection).1.stop ∨
        cell.position.after '\n' = (s.reach selection).1.start)
  /-- A partner that stays apart covers it. -/
  | apart {r : Range} (mem : r ∈ (s.reach selection).2) (covers : r.covers cell.position)
  /-- It goes with a line that the partners that stay apart drop. -/
  | dropped {n : Nat} (isDropped : s.document.IsDropped (s.reach selection).2 n)
      (line : cell.position.line = n ∨ cell.char = '\n' ∧ cell.position.line + 1 = n)

variable {cell : Cell}

theorem exists_removal (hvalid : s.IsValid) (hcell : cell ∈ s.document.cells)
    (h : s.removed.covers cell.position) :
    ∃ selection ∈ s.selections, s.Removal selection cell := by
  rcases covers_removed.mp h with ⟨selection, hselection, hcovers⟩ | hpooled
  · refine ⟨selection, hselection, ?_⟩
    obtain ⟨hanchor, hactive⟩ := hvalid selection hselection
    have hreach := (isValid_reach hanchor hactive).1
    rcases cases_of_covers_widened hcell hreach.2 hcovers with hcovers | ⟨hchar, hbeside⟩
    · exact .reached hcovers
    · exact .lineBreak hchar hbeside
  · obtain ⟨ranges, hranges, hreason⟩ :=
      Document.exists_reason_of_covers (allEnds_apart hvalid) hcell hpooled
    obtain ⟨selection, hselection, rfl⟩ := List.mem_map.mp hranges
    refine ⟨selection, hselection, ?_⟩
    rcases hreason with ⟨r, hr, hcovers⟩ | ⟨n, hdropped, hline⟩
    · exact .apart hr hcovers
    · exact .dropped hdropped hline

/-- What neither the selection nor a partner takes is blank or a semicolon. -/
theorem Removal.taken_or (h : s.Removal selection cell) (hcell : cell ∈ s.document.cells) :
    (selection.Takes s.document cell.position ∨
      ∃ r, s.IsPartner selection r ∧ r.covers cell.position) ∨
    Unicode.isWhite cell.char ∨ cell.char = ';' := by
  have hfeed (hchar : cell.char = '\n') : Unicode.isWhite cell.char := hchar ▸ rfl
  cases h with
  | reached covers => exact .inl (covers_reach.mp (.inl covers))
  | lineBreak char beside => exact .inr (.inl (hfeed char))
  | apart mem covers => exact .inl (covers_reach.mp (.inr ⟨_, mem, covers⟩))
  | dropped isDropped line =>
      rcases Document.cases_of_mem_cells hcell with ⟨hne, hchar, -⟩ | ⟨hchar, -, -⟩
      · obtain rfl := line.resolve_right fun hline => hne hline.1
        rcases isDropped.covers_or hchar with ⟨r, hr, hcovers⟩ | hresidue
        · exact .inl (covers_reach.mp (.inr ⟨r, hr, hcovers⟩))
        · exact .inr hresidue
      · exact .inr (.inl (hfeed hchar))

theorem covers_removed_of_isSelected (h : s.IsSelected p) : s.removed.covers p := by
  obtain ⟨selection, hselection, htakes⟩ := h
  apply covers_removed.mpr
  exact .inl ⟨selection, hselection, covers_widened_of_covers (covers_reach_of_takes htakes)⟩

/-- All characters of a partner go, but maybe not the line breaks. -/
theorem covers_removed_of_onPartner (hvalid : s.IsValid) (hcell : cell ∈ s.document.cells)
    (hchar : cell.char ≠ '\n') (h : s.OnPartner cell.position) :
    s.removed.covers cell.position := by
  obtain ⟨selection, hselection, hpartner⟩ := h
  apply covers_removed.mpr
  rcases covers_reach.mpr (.inr hpartner) with hreached | ⟨r, hr, hcovers⟩
  · exact .inl ⟨selection, hselection, covers_widened_of_covers hreached⟩
  · right
    obtain ⟨-, -, hlt⟩ := (Document.cases_of_mem_cells hcell).resolve_right fun h => hchar h.1
    apply (Document.covers_pooled_character (allEnds_apart hvalid)
      (Document.line_lt_of_mem_cells hcell) hlt).mpr
    exact ⟨_, List.mem_map_of_mem hselection, .inr ⟨r, hr, hcovers⟩⟩

/-- What is neither blank nor a semicolon goes if and only if it is selected or on a partner. -/
theorem covers_removed_iff (hvalid : s.IsValid) (hcell : cell ∈ s.document.cells)
    (hwhite : Unicode.isWhite cell.char = false) (hsemicolon : cell.char ≠ ';') :
    s.removed.covers cell.position ↔ s.IsSelected cell.position ∨ s.OnPartner cell.position := by
  constructor
  · intro h
    obtain ⟨selection, hselection, hremoval⟩ := exists_removal hvalid hcell h
    rcases hremoval.taken_or hcell with (htakes | hpartner) | hblank | hlone
    · exact .inl ⟨selection, hselection, htakes⟩
    · exact .inr ⟨selection, hselection, hpartner⟩
    · rw [hwhite] at hblank
      cases hblank
    · exact absurd hlone hsemicolon
  · rintro (h | h)
    · exact covers_removed_of_isSelected h
    · refine covers_removed_of_onPartner hvalid hcell ?_ h
      intro hfeed
      rw [hfeed] at hwhite
      cases hwhite

/-- Deleting selections with their partners takes every selected character, and all that is on a
partner except line breaks. It takes nothing else but blanks, line breaks among them, and
semicolons. -/
theorem execute_deleteSelectionWithPairs_takes (s : Session) (hsome : s.selections ≠ [])
    (hvalid : s.IsValid) :
    ∃ (count : Nat) (after : Session) (gone : Position → Bool),
      s.execute .deleteSelectionWithPairs = .ok (.applied count false, after) ∧
      after.document.text = Cell.text (s.document.cells.filter (!gone ·.position)) ∧
      ∀ cell ∈ s.document.cells,
        (s.IsSelected cell.position → gone cell.position) ∧
        (s.OnPartner cell.position → cell.char ≠ '\n' → gone cell.position) ∧
        (gone cell.position → s.IsSelected cell.position ∨ s.OnPartner cell.position ∨
          Unicode.isWhite cell.char ∨ cell.char = ';') := by
  obtain ⟨count, after, hexecute, hafter⟩ := exists_execute_deleteSelectionWithPairs hsome hvalid
  refine ⟨count, after, s.removed.covers, hexecute, congrArg Document.text hafter, ?_⟩
  intro cell hcell
  refine ⟨covers_removed_of_isSelected, ?_, ?_⟩
  · intro hpartner hchar
    exact covers_removed_of_onPartner hvalid hcell hchar hpartner
  · intro hgone
    obtain ⟨selection, hselection, hremoval⟩ := exists_removal hvalid hcell hgone
    rcases hremoval.taken_or hcell with (htakes | hpartner) | hblank
    · exact .inl ⟨selection, hselection, htakes⟩
    · exact .inr (.inl ⟨selection, hselection, hpartner⟩)
    · exact .inr (.inr hblank)

/-- In `(<b>x</b>)` a caret on the first parenthesis takes both, and the selected `<b>` takes along
the `</b>`. -/
theorem execute_deleteSelectionWithPairs_takes_tag :
    let s : Session := ⟨⟨['(', '<', 'b', '>', 'x', '<', '/', 'b', '>', ')'], .lf⟩,
      [.caret ⟨0, 0⟩, ⟨⟨0, 1⟩, ⟨0, 4⟩⟩], .default, .other⟩
    s.selections ≠ [] ∧ s.IsValid ∧
      ∃ (count : Nat) (after : Session) (gone : Position → Bool),
        s.execute .deleteSelectionWithPairs = .ok (.applied count false, after) ∧
        after.document.text = Cell.text (s.document.cells.filter (!gone ·.position)) ∧
        gone ⟨0, 0⟩ ∧ gone ⟨0, 9⟩ ∧ gone ⟨0, 1⟩ ∧ gone ⟨0, 5⟩ := by
  intro s
  have hsome : s.selections ≠ [] := List.cons_ne_nil _ _
  have hvalid : s.IsValid := by decide
  let caret : Selection := .caret ⟨0, 0⟩
  let tag : Selection := ⟨⟨0, 1⟩, ⟨0, 4⟩⟩
  have hcaret : caret ∈ s.selections := List.mem_cons_self
  have htag : tag ∈ s.selections := List.mem_cons_of_mem _ List.mem_cons_self
  have htakes : caret.Takes s.document ⟨0, 0⟩ := ⟨rfl, rfl⟩
  have hparenthesis : s.IsPartner caret (Range.between ⟨0, 9⟩ ⟨0, 10⟩) :=
    .bracket (b := ⟨.paren, .opening, ⟨0, 0⟩⟩) htakes rfl rfl (by decide +kernel)
  have hwithin : (⟨['b'], .opening, tag.range⟩ : Tag) ∈ s.document.tagsIn tag.range :=
    Document.mem_tagsIn_of_begins ⟨['b'], [], rfl, by decide, by decide⟩
  have hclosing : s.IsPartner tag (Range.between ⟨0, 5⟩ ⟨0, 9⟩) :=
    .tag (u := ⟨['b'], .closing, Range.between ⟨0, 5⟩ ⟨0, 9⟩⟩) hwithin (by decide)
  refine ⟨hsome, hvalid, ?_⟩
  obtain ⟨count, after, gone, hexecute, htext, hgone⟩ :=
    execute_deleteSelectionWithPairs_takes s hsome hvalid
  refine ⟨count, after, gone, hexecute, htext, ?_, ?_, ?_, ?_⟩
  · apply (hgone ⟨⟨0, 0⟩, '('⟩ (by decide)).1
    exact ⟨_, hcaret, htakes⟩
  · apply (hgone ⟨⟨0, 9⟩, ')'⟩ (by decide)).2.1
    · exact ⟨_, hcaret, _, hparenthesis, by decide⟩
    · decide
  · apply (hgone ⟨⟨0, 1⟩, '<'⟩ (by decide)).1
    exact ⟨_, htag, rfl⟩
  · apply (hgone ⟨⟨0, 5⟩, '<'⟩ (by decide)).2.1
    · exact ⟨_, htag, _, hclosing, by decide⟩
    · decide

end Session

end MarkupPairs
