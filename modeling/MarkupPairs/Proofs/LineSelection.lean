import MarkupPairs.Proofs.PairDeletion
import MarkupPairs.Proofs.RangeUnion
import MarkupPairs.Proofs.SelectionOrder

/-!
# Deleting complete lines together with partner lines

When complete lines are selected and each partner outside of them stands alone on a line of its own,
deleting the selection cuts out lines only: the selected ones and those of the partners. The two
kinds take their line breaks apart from each other, so where both are among the lines at the end of
the text the line break in front of them stays, and with it an empty last line.
-/

namespace MarkupPairs

namespace Range

/-- Whether a line is one of those from the start of a range to its stop. -/
def Reaches (r : Range) (n : Nat) : Prop := r.start.line ≤ n ∧ n ≤ r.stop.line

instance (r : Range) (n : Nat) : Decidable (r.Reaches n) := inferInstanceAs (Decidable (_ ∧ _))

/-- Whether a range lies on one line, which another one does not reach. -/
def IsBeside (e r : Range) : Prop := e.start.line = e.stop.line ∧ ¬r.Reaches e.start.line

variable {r e : Range} {p : Position}

theorem Reaches.of_covers (h : r.covers p) : r.Reaches p.line := by
  obtain ⟨hle, hlt⟩ := covers_iff.mp h
  simp only [Position.le_def, Position.lt_def] at hle hlt
  rw [Reaches]
  omega

theorem IsBeside.not_intersects (h : e.IsBeside r) : ¬r.intersects e := by
  obtain ⟨hline, hbeside⟩ := h
  intro hmeet
  obtain ⟨hre, her⟩ := intersects_iff.mp hmeet
  simp only [Position.le_def] at hre her
  rw [Reaches] at hbeside
  omega

theorem IsBeside.line_eq (h : e.IsBeside r) (hp : e.covers p) : p.line = e.start.line := by
  obtain ⟨hline, -⟩ := h
  obtain ⟨hstart, hstop⟩ := Reaches.of_covers hp
  omega

/-- Of ranges that lie within a range or beside it, those beside cover what is covered on the lines
that the range does not reach. -/
theorem exists_beside_covers_iff {ranges : List Range}
    (h : ∀ e ∈ ranges, r.contains e ∨ e.IsBeside r) :
    (∃ e ∈ ranges.filter (!r.contains ·), e.covers p) ↔
      (∃ e ∈ ranges, e.covers p) ∧ ¬r.Reaches p.line := by
  constructor
  · rintro ⟨e, he, hp⟩
    obtain ⟨he, hout⟩ := List.mem_filter.mp he
    have hbeside := (h e he).resolve_left (by simpa using hout)
    exact ⟨⟨e, he, hp⟩, hbeside.line_eq hp ▸ hbeside.2⟩
  · rintro ⟨⟨e, he, hp⟩, hreach⟩
    refine ⟨e, List.mem_filter.mpr ⟨he, ?_⟩, hp⟩
    rw [Bool.not_eq_true', Bool.eq_false_iff]
    exact fun hcontains => hreach (Reaches.of_covers (covers_of_contains hcontains hp))

end Range

/-- Ranges that meet lie both within a range or both beside it. -/
theorem RangeSet.isMerging_beside (r : Range) :
    IsMerging fun e => r.contains e ∨ e.IsBeside r := by
  have hmiss {a b : Range} (hmeet : a.intersects b) (ha : r.contains a) : ¬b.IsBeside r :=
    fun hb => hb.not_intersects (Range.intersects_of_contains ha b.contains_refl hmeet)
  rintro a b hmeet (ha | ha) (hb | hb)
  · exact .inl (Range.contains_union.mpr ⟨ha, hb⟩)
  · exact absurd hb (hmiss hmeet ha)
  · refine absurd ha (hmiss ?_ hb)
    rw [Range.intersects_iff] at hmeet ⊢
    exact hmeet.symm
  · right
    obtain ⟨hab, hba⟩ := Range.intersects_iff.mp hmeet
    obtain ⟨hline, hbeside⟩ := ha
    obtain ⟨hline', -⟩ := hb
    have hsame : b.start.line = a.start.line := by
      simp only [Position.le_def] at hab hba
      omega
    have hstart : (a.union b).start.line = a.start.line :=
      Range.start_union_of (P := (·.line = a.start.line)) rfl hsame
    have hstop : (a.union b).stop.line = a.start.line :=
      Range.stop_union_of (P := (·.line = a.start.line)) hline.symm (hline'.symm.trans hsame)
    exact ⟨hstart.trans hstop.symm, hstart ▸ hbeside⟩

namespace Session

variable {s : Session} {selection : Selection} {r e : Range} {n : Nat} {p : Position}

/-- The partners of the tags and brackets in a range, one by one. -/
def partnersIn (s : Session) (r : Range) : List Range :=
  ((s.document.tagsIn r).filterMap (s.document.partner? s.settings.limits)).map Tag.range ++
    ((s.document.bracketsIn r).filterMap s.document.bracketPartner?).map fun p =>
      Range.between p (p.right 1)

/-- The partners that a range does not contain. -/
def partnersOutside (s : Session) (r : Range) : List Range :=
  (s.partnersIn r).filter (!r.contains ·)

/-- A range of complete lines all of whose partners outside stand on lines outside of which, without
these partners, nothing but blanks is left. -/
structure TakesLines (s : Session) (r : Range) : Prop where
  isBlock : (s.document.shape r).isBlock
  isBeside : ∀ e ∈ s.partnersOutside r, e.IsBeside r
  blank : ∀ e ∈ s.partnersOutside r,
    (s.document.remainder (s.partnersOutside r) e.start.line).trim = []

/-- Whether one of the partners outside of a range stands on a line. -/
def HasPartner (s : Session) (r : Range) (n : Nat) : Prop :=
  ∃ e ∈ s.partnersOutside r, e.start.line = n

instance (s : Session) (r : Range) (n : Nat) : Decidable (s.HasPartner r n) :=
  inferInstanceAs (Decidable (∃ _ ∈ _, _))

/-- The lines that remain when a range of lines goes together with the lines of its partners. -/
def linesKept (s : Session) (r : Range) : List Text :=
  ((List.range s.document.lineCount).filter fun n => ¬r.Reaches n ∧ ¬s.HasPartner r n).map
    s.document.line

/-- Whether the lines behind the last one that remains are partly lines of the range and partly
lines of partners. -/
def EndsMixed (s : Session) (r : Range) : Prop :=
  ∃ n < s.document.lineCount, (¬r.Reaches n ∧ ¬s.HasPartner r n) ∧
    (∀ m < s.document.lineCount, n < m → r.Reaches m ∨ s.HasPartner r m) ∧
    (∃ m < s.document.lineCount, n < m ∧ r.Reaches m) ∧
    ∃ m < s.document.lineCount, n < m ∧ s.HasPartner r m

instance (s : Session) (r : Range) : Decidable (s.EndsMixed r) :=
  inferInstanceAs (Decidable (∃ _, _ ∧ _))

theorem start_lt_stop_of_mem_partnersIn (h : e ∈ s.partnersIn r) : e.start < e.stop := by
  rcases List.mem_append.mp h with h | h
  · obtain ⟨u, hu, rfl⟩ := List.mem_map.mp h
    obtain ⟨t, -, hpartner⟩ := List.mem_filterMap.mp hu
    obtain ⟨pre, x, post, -, hrange⟩ := Document.exists_angled_of_partner? hpartner
    rw [hrange]
    exact Position.lt_afterText (List.cons_ne_nil _ _)
  · obtain ⟨q, -, rfl⟩ := List.mem_map.mp h
    have hlt : q < q.right 1 := Position.lt_right_one.mpr (Position.le_refl q)
    rw [Range.between_of_le (Position.le_of_lt hlt)]
    exact hlt

/-- A range takes in no partner that lies beside it. -/
theorem takeIn_of_beside {partners : List Range} (h : ∀ e ∈ partners, r.contains e ∨ e.IsBeside r) :
    takeIn r partners = (r, partners.filter (!r.contains ·)) := by
  induction partners with
  | nil => rfl
  | cons e rest ih =>
      obtain ⟨he, hrest⟩ := List.forall_mem_cons.mp h
      rw [takeIn, ih hrest]
      by_cases hcontains : r.contains e
      · rw [if_pos hcontains, List.filter_cons_of_neg (by simp [hcontains])]
      · have hmiss := (he.resolve_left hcontains).not_intersects
        rw [if_neg hcontains, if_neg hmiss, List.filter_cons_of_pos (by simp [hcontains])]

theorem stop_line_lt (hselected : s.selections = [selection]) (hvalid : s.IsValid) :
    selection.range.stop.line < s.document.lineCount := by
  obtain ⟨hanchor, hactive⟩ := hvalid selection (hselected ▸ List.mem_singleton_self _)
  exact (Document.isValid_iff.mp (Selection.isValid_range hanchor hactive).2).1

namespace TakesLines

/-- The partners that stay apart, merged where they meet. -/
def apart (s : Session) (r : Range) : List Range :=
  (s.partnersOf r).ranges.filter (!r.contains ·)

theorem partnersIn_beside (h : s.TakesLines r) :
    ∀ e ∈ s.partnersIn r, r.contains e ∨ e.IsBeside r := by
  intro e he
  by_cases hcontains : r.contains e
  · exact .inl hcontains
  · exact .inr (h.isBeside e (List.mem_filter.mpr ⟨he, by simp [hcontains]⟩))

theorem partnersOf_beside (h : s.TakesLines r) :
    ∀ e ∈ (s.partnersOf r).ranges, r.contains e ∨ e.IsBeside r :=
  RangeSet.forall_mem_insertAll (RangeSet.isMerging_beside r) h.partnersIn_beside
    (List.forall_mem_nil _)

/-- Merging changes nothing in what the partners cover. -/
theorem exists_apart_covers_iff (h : s.TakesLines r) :
    (∃ e ∈ apart s r, e.covers p) ↔ ∃ e ∈ s.partnersOutside r, e.covers p := by
  have hcovers : (∃ e ∈ (s.partnersOf r).ranges, e.covers p) ↔
      ∃ e ∈ s.partnersIn r, e.covers p := by
    rw [← List.any_eq_true, ← List.any_eq_true]
    exact Bool.eq_iff_iff.mp (RangeSet.covers_ofList (s.partnersIn r) p)
  rw [apart, partnersOutside, Range.exists_beside_covers_iff h.partnersOf_beside,
    Range.exists_beside_covers_iff h.partnersIn_beside, hcovers]

theorem remainder_apart (h : s.TakesLines r) (n : Nat) :
    s.document.remainder (apart s r) n = s.document.remainder (s.partnersOutside r) n := by
  refine congrArg Cell.text (List.filter_congr fun cell _ => congrArg _ ?_)
  rw [Bool.eq_iff_iff, List.any_eq_true, List.any_eq_true]
  exact h.exists_apart_covers_iff

theorem isBeside_of_mem_apart (h : s.TakesLines r) (he : e ∈ apart s r) : e.IsBeside r := by
  obtain ⟨he, hout⟩ := List.mem_filter.mp he
  exact (h.partnersOf_beside e he).resolve_left (by simpa using hout)

/-- The lines that the partners drop are those that they stand on. -/
theorem isDropped_apart_iff (h : s.TakesLines r) :
    s.document.IsDropped (apart s r) n ↔ s.HasPartner r n := by
  have hcovered {e : Range} {rs rs' : List Range}
      (heq : ∀ p, (∃ e ∈ rs, e.covers p) ↔ ∃ e ∈ rs', e.covers p)
      (hbeside : ∀ e ∈ rs', e.IsBeside r) (he : e ∈ rs) (hlt : e.start < e.stop) :
      ∃ e' ∈ rs', e'.start ≠ e'.stop ∧ e'.start.line = e.start.line := by
    have hstart : e.covers e.start := Range.covers_iff.mpr ⟨Position.le_refl _, hlt⟩
    obtain ⟨e', he', hcovers⟩ := (heq e.start).mp ⟨e, he, hstart⟩
    refine ⟨e', he', fun hempty => ?_, ((hbeside e' he').line_eq hcovers).symm⟩
    rw [Range.covers_of_isEmpty (Range.isEmpty_iff.mpr hempty)] at hcovers
    cases hcovers
  constructor
  · rintro (⟨e, he, hencloses⟩ | ⟨⟨e, he, hsome, hline⟩, -⟩)
    · obtain ⟨hline, -⟩ := h.isBeside_of_mem_apart he
      exact absurd hencloses (by rw [Range.Encloses]; omega)
    · have hlt : e.start < e.stop :=
        Position.not_le.mp fun hle => hsome (Position.le_antisymm e.start_le_stop hle)
      obtain ⟨e', he', -, hsame⟩ :=
        hcovered (fun _ => h.exists_apart_covers_iff) h.isBeside he hlt
      obtain ⟨hflat, -⟩ := h.isBeside_of_mem_apart he
      exact ⟨e', he', by omega⟩
  · rintro ⟨e, he, rfl⟩
    have hlt := start_lt_stop_of_mem_partnersIn (List.mem_filter.mp he).1
    obtain ⟨e', he', hsome, hsame⟩ := hcovered (fun _ => h.exists_apart_covers_iff.symm)
      (fun _ => h.isBeside_of_mem_apart) he hlt
    refine .inr ⟨⟨e', he', hsome, .inl hsame⟩, .inl ?_⟩
    rw [h.remainder_apart]
    exact h.blank e he

theorem not_reaches (h : s.TakesLines r) (hn : s.HasPartner r n) : ¬r.Reaches n := by
  obtain ⟨e, he, rfl⟩ := hn
  exact (h.isBeside e he).2

theorem reach_eq (h : s.TakesLines selection.range) :
    s.reach selection = (selection.range, apart s selection.range) := by
  have hsome : ¬selection.isEmpty := by
    intro hempty
    have hblock := h.isBlock
    rw [Selection.eq_caret hempty, Selection.shape_range_caret] at hblock
    cases hblock
  rw [reach, selectedRange, if_neg hsome, takeIn_of_beside h.partnersOf_beside]
  rfl

section

variable (h : s.TakesLines selection.range) (hselected : s.selections = [selection])
include h hselected

theorem apart_eq : s.apart = [apart s selection.range] := by
  rw [Session.apart, hselected, List.map_singleton, h.reach_eq]

/-- What goes is the selection with its line break and what the partners drop. -/
theorem covers_removed_iff : s.removed.covers p ↔
    (LineDeletion.runRange s.document selection.range.start.line
      selection.range.stop.line).covers p ∨
    (s.document.deletedRanges (s.document.lineDeletions (apart s selection.range))).covers p := by
  rw [Session.covers_removed, h.apart_eq hselected, hselected, Document.pooledDeletions,
    List.flatMap_singleton]
  simp only [List.mem_singleton, exists_eq_left, h.reach_eq]
  rw [widened, if_pos h.isBlock, withLineBreak_eq h.isBlock]

variable (hvalid : s.IsValid)
include hvalid

theorem allEnds_apart : RangeSet.AllEnds (s.document.isValid ·) (apart s selection.range) := by
  apply Session.allEnds_apart hvalid
  rw [h.apart_eq hselected]
  exact List.mem_singleton_self _

theorem covers_removed_character {i : Nat} (hn : n < s.document.lineCount)
    (hi : i < s.document.lineLength n) :
    s.removed.covers ⟨n, i⟩ ↔ selection.range.Reaches n ∨ s.HasPartner selection.range n := by
  rw [h.covers_removed_iff hselected,
    LineDeletion.covers_runRange_character selection.range.line_le_line hi hn,
    Document.covers_character (h.allEnds_apart hselected hvalid) hn hi, h.isDropped_apart_iff]
  refine or_congr_right ⟨?_, .inl⟩
  rintro (hpartner | ⟨e, he, hcovers⟩)
  · exact hpartner
  · obtain ⟨e', he', hcovers'⟩ := h.exists_apart_covers_iff.mp ⟨e, he, hcovers⟩
    exact ⟨e', he', ((h.isBeside e' he').line_eq hcovers').symm⟩

/-- A line feed goes with the line in front of it, and also when the lines behind it are just those
of the selection, or are all lines of partners. -/
theorem covers_removed_lineFeed (hn : n + 1 < s.document.lineCount) :
    s.removed.covers (s.document.lineStop n) ↔
      (selection.range.Reaches n ∨ s.HasPartner selection.range n) ∨
        (selection.range.stop.line + 1 = s.document.lineCount ∧ selection.range.Reaches (n + 1)) ∨
        ∀ m, n < m → m < s.document.lineCount → s.HasPartner selection.range m := by
  rw [h.covers_removed_iff hselected,
    LineDeletion.covers_runRange_lineFeed selection.range.line_le_line
      (stop_line_lt hselected hvalid) hn,
    Document.covers_lineFeed (h.allEnds_apart hselected hvalid) hn]
  simp only [h.isDropped_apart_iff]
  exact or_or_or_comm

/-- Behind the last line that remains the line feed goes, unless the lines there are mixed. -/
theorem covers_removed_last (hn : n + 1 < s.document.lineCount)
    (hkept : ¬selection.range.Reaches n ∧ ¬s.HasPartner selection.range n)
    (hlater : ∀ m < s.document.lineCount, n < m →
      selection.range.Reaches m ∨ s.HasPartner selection.range m) :
    s.removed.covers (s.document.lineStop n) ↔ ¬s.EndsMixed selection.range := by
  have hstop := stop_line_lt hselected hvalid
  have hmixed : s.EndsMixed selection.range ↔
      (∃ m < s.document.lineCount, n < m ∧ selection.range.Reaches m) ∧
        ∃ m < s.document.lineCount, n < m ∧ s.HasPartner selection.range m := by
    constructor
    · rintro ⟨n', hn', hkept', hlater', hboth⟩
      -- there is one last line only
      rcases Nat.lt_trichotomy n n' with hlt | rfl | hlt
      · exact absurd (hlater n' hn' hlt) (not_or.mpr hkept')
      · exact hboth
      · exact absurd (hlater' n (by omega) hlt) (not_or.mpr hkept)
    · exact fun hboth => ⟨n, by omega, hkept, hlater, hboth⟩
  rw [h.covers_removed_lineFeed hselected hvalid hn, or_iff_right (not_or.mpr hkept), hmixed]
  constructor
  · rintro (⟨hend, hnext⟩ | hall) ⟨⟨m, hm, hnm, hreaches⟩, m', hm', hnm', hpartner⟩
    · refine h.not_reaches hpartner ?_
      rw [Range.Reaches] at hnext ⊢
      omega
    · exact h.not_reaches (hall m hnm hm) hreaches
  · intro hpure
    by_cases hpartner : ∃ m < s.document.lineCount, n < m ∧ s.HasPartner selection.range m
    · right
      intro m hnm hm
      refine (hlater m hm hnm).resolve_left fun hreaches => ?_
      exact hpure ⟨⟨m, hm, hnm, hreaches⟩, hpartner⟩
    · left
      have hreaches {m : Nat} (hm : m < s.document.lineCount) (hnm : n < m) :
          selection.range.Reaches m :=
        (hlater m hm hnm).resolve_right fun hm' => hpartner ⟨m, hm, hnm, hm'⟩
      have hend := (hreaches (m := s.document.lineCount - 1) (by omega) (by omega)).2
      exact ⟨by omega, hreaches hn (Nat.lt_succ_self n)⟩

/-- What goes are lines, with a line feed behind each of them or in front. -/
theorem cutsLines : s.document.CutsLines s.removed.ranges
    (fun n => ¬selection.range.Reaches n ∧ ¬s.HasPartner selection.range n) s.document.line
    (¬s.EndsMixed selection.range : Bool) := by
  have hgone {n : Nat} (hdrops : decide (¬selection.range.Reaches n ∧
      ¬s.HasPartner selection.range n) = false) :
      selection.range.Reaches n ∨ s.HasPartner selection.range n := by
    simpa [imp_iff_not_or] using hdrops
  refine ⟨fun n hn => ?_, fun n hn hdrops => ?_, fun n m hnm hm hkeeps hkeeps' => ?_,
    fun n hn hkeeps hlater => ?_⟩
  · split
    next hkeeps =>
      have hall : ∀ cell ∈ s.document.cellsOfLine n, s.removed.covers cell.position = false := by
        intro cell hcell
        obtain ⟨rfl, hi⟩ := Document.position_of_mem_cellsOfLine hcell
        rw [Bool.eq_false_iff, ne_eq, h.covers_removed_character hselected hvalid hn hi]
        simpa [not_or] using hkeeps
      rw [Cell.keptText, List.filter_eq_self.mpr]
      · exact Cell.text_layOut _ _
      · intro cell hcell
        exact Bool.not_eq_true' _ |>.mpr (hall cell hcell)
    next hdrops =>
      rw [Cell.keptText, List.filter_eq_nil_iff.mpr]
      · rfl
      · intro cell hcell
        obtain ⟨rfl, hi⟩ := Document.position_of_mem_cellsOfLine hcell
        have hcovers := (h.covers_removed_character hselected hvalid hn hi).mpr
          (hgone (Bool.eq_false_iff.mpr hdrops))
        rw [RangeSet.covers] at hcovers
        simp [hcovers]
  · exact (h.covers_removed_lineFeed hselected hvalid hn).mpr (.inl (hgone hdrops))
  · have hkept := not_or.mpr (of_decide_eq_true hkeeps)
    have hkept' := not_or.mpr (of_decide_eq_true hkeeps')
    refine Bool.eq_false_iff.mpr fun hcovers => ?_
    rcases (h.covers_removed_lineFeed hselected hvalid (by omega)).mp hcovers with
      hdrops | ⟨hend, hnext⟩ | hall
    · exact hkept hdrops
    · refine hkept' (.inl ?_)
      rw [Range.Reaches] at hnext ⊢
      omega
    · exact hkept' (.inr (hall m hnm hm))
  · rw [Bool.eq_iff_iff, decide_eq_true_iff]
    exact h.covers_removed_last hselected hvalid hn (of_decide_eq_true hkeeps)
      fun m hm hnm => hgone (hlater m hnm hm)

end

end TakesLines

/-- Deleting one selection of complete lines each partner of which is inside, or on a line outside
that is blank without the partners there, leaves the other lines and nothing else. The exception is
a text that ends in lines that go and of which some are selected and some are lines of partners:
there an empty line stays behind the last one that remains. -/
theorem execute_deleteSelectionWithPairs_lines (s : Session) (selection : Selection)
    (hselected : s.selections = [selection]) (hvalid : s.IsValid)
    (h : s.TakesLines selection.range) :
    ∃ count after, s.execute .deleteSelectionWithPairs = .ok (.applied count false, after) ∧
      (after.document.text = Text.ofLines (s.linesKept selection.range) ↔
        ¬s.EndsMixed selection.range) ∧
      (s.EndsMixed selection.range →
        after.document.text = Text.ofLines (s.linesKept selection.range) ++ ['\n']) := by
  have hsome : s.selections ≠ [] := hselected ▸ List.cons_ne_nil _ _
  obtain ⟨count, after, hexecute, hafter⟩ := exists_execute_deleteSelectionWithPairs hsome hvalid
  have htext := (congrArg Document.text hafter).trans (h.cutsLines hselected hvalid).keptText_cells
  refine ⟨count, after, hexecute, ?_⟩
  by_cases hmixed : s.EndsMixed selection.range
  · have hfeed : decide (¬s.EndsMixed selection.range) = false :=
      decide_eq_false (not_not.mpr hmixed)
    have hstray : after.document.text = Text.ofLines (s.linesKept selection.range) ++ ['\n'] := by
      obtain ⟨n, hn, hkept, hlater, ⟨m, hm, hnm, -⟩, -⟩ := hmixed
      have hlast := hlater (s.document.lineCount - 1) (by omega) (by omega)
      rw [if_pos] at htext
      · exact htext
      · refine ⟨List.ne_nil_of_mem (List.mem_filter.mpr ⟨List.mem_range.mpr hn, ?_⟩), ?_, hfeed⟩
        · exact decide_eq_true hkept
        · exact decide_eq_false fun hkept => not_or.mpr hkept hlast
    refine ⟨iff_of_false (fun heq => ?_) (not_not.mpr hmixed), fun _ => hstray⟩
    exact absurd (heq.symm.trans hstray) (by simp)
  · rw [if_neg (by simp [hmixed]), List.append_nil] at htext
    exact ⟨iff_of_true htext hmixed, fun h => absurd h hmixed⟩

/-- In `<a>`, `x`, `</a>`, `y` the first line is selected, and the third goes along. -/
theorem execute_deleteSelectionWithPairs_lines_element :
    let selection : Selection := ⟨⟨0, 0⟩, ⟨0, 3⟩⟩
    let s : Session := ⟨⟨['<', 'a', '>', '\n', 'x', '\n', '<', '/', 'a', '>', '\n', 'y'], .lf⟩,
      [selection], .default, .html⟩
    s.selections = [selection] ∧ s.IsValid ∧ s.TakesLines selection.range ∧
      ∃ count after, s.execute .deleteSelectionWithPairs = .ok (.applied count false, after) ∧
        after.document.text = ['x', '\n', 'y'] := by
  intro selection s
  have hvalid : s.IsValid := by decide
  have hpartners : s.partnersOutside selection.range = [⟨⟨2, 0⟩, ⟨2, 4⟩, by decide⟩] := by
    decide +kernel
  have hlines : s.TakesLines selection.range := by
    refine ⟨by decide, ?_, ?_⟩
    · rw [hpartners]
      exact List.forall_mem_singleton.mpr ⟨rfl, by decide⟩
    · rw [hpartners]
      exact List.forall_mem_singleton.mpr (by decide)
  have hpure : ¬s.EndsMixed selection.range := by
    simp only [EndsMixed, HasPartner, hpartners]
    decide
  have hkept : s.linesKept selection.range = [['x'], ['y']] := by
    simp only [linesKept, HasPartner, hpartners]
    decide
  obtain ⟨count, after, hexecute, htext, -⟩ :=
    execute_deleteSelectionWithPairs_lines s selection rfl hvalid hlines
  refine ⟨rfl, hvalid, hlines, count, after, hexecute, ?_⟩
  rw [htext.mpr hpure, hkept]
  rfl

/-- In `p`, `<a>`, `</a>` the last line is selected and takes the line break in front of it, which
is the one that the line of the partner takes as well. The one behind `p` stays. -/
theorem execute_deleteSelectionWithPairs_lines_mixed :
    let selection : Selection := ⟨⟨2, 0⟩, ⟨2, 4⟩⟩
    let s : Session := ⟨⟨['p', '\n', '<', 'a', '>', '\n', '<', '/', 'a', '>'], .lf⟩, [selection],
      .default, .html⟩
    (s.document.lineCount < s.settings.limits.enclosing ∧
      s.document.lineCount < s.settings.limits.paired ∧
      s.document.lineCount < s.settings.limits.surrounding) ∧
      s.IsValid ∧ s.TakesLines selection.range ∧ s.linesKept selection.range = [['p']] ∧
      ∃ after, s.execute .deleteSelectionWithPairs = .ok (.applied 1 false, after) ∧
        after.document.text = ['p', '\n'] ∧
        after.document.text ≠ Text.ofLines (s.linesKept selection.range) := by
  intro selection s
  have hpartners : s.partnersOutside selection.range = [⟨⟨1, 0⟩, ⟨1, 3⟩, by decide⟩] := by
    decide +kernel
  have hlines : s.TakesLines selection.range := by
    refine ⟨by decide, ?_, ?_⟩
    · rw [hpartners]
      exact List.forall_mem_singleton.mpr ⟨rfl, by decide⟩
    · rw [hpartners]
      exact List.forall_mem_singleton.mpr (by decide)
  have hkept : s.linesKept selection.range = [['p']] := by
    simp only [linesKept, HasPartner, hpartners]
    decide
  have hplan : (EditPlan.deleteAll s.removed.ranges).edits =
      [⟨⟨⟨1, 0⟩, ⟨2, 4⟩, by decide⟩, []⟩] := by decide +kernel
  obtain ⟨after, hexecute, htext⟩ : ∃ after,
      s.execute .deleteSelectionWithPairs = .ok (.applied 1 false, after) ∧
        after.document.text = ['p', '\n'] := by
    obtain ⟨targets, hdelete⟩ := s.exists_deleteSelectionWithPairs_eq
    rw [execute_of_ne_nil (List.cons_ne_nil _ _), action, hdelete, result_commit,
      Document.apply_singleton hplan (by decide) (by decide)]
    exact ⟨_, rfl, rfl⟩
  refine ⟨by decide, by decide, hlines, hkept, after, hexecute, htext, ?_⟩
  rw [htext, hkept]
  decide

end Session

end MarkupPairs
