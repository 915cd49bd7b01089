import MarkupPairs.Proofs.ClassTag
import MarkupPairs.Proofs.LeadingSelection
import MarkupPairs.Proofs.Offsets
import MarkupPairs.Proofs.TagCarets

/-!
# The primary selection

Every command but the one that deletes the selections has a target for each of them. The new
selections are these targets, normalized, so the first of them need not be what the primary
selection has become: it is the one that comes first in the text. The primary selection stays
primary just when nothing else comes to be ahead of it.
-/

namespace MarkupPairs

namespace Document

variable {d : Document}

/-- Where a position is once splices have been made. -/
def carried (d : Document) (splices : List Splice) (after : Document) (p : Position) : Position :=
  after.positionAt (Splice.landing splices (d.offsetAt p) .left)

/-- Positions keep their order. -/
theorem carried_le_carried {plan : EditPlan} {splices : List Splice} {after : Document}
    (h : d.apply plan = .ok (splices, after)) (p q : Position) (hle : p ≤ q) :
    d.carried splices after p ≤ d.carried splices after q := by
  have hresolve := resolve_of_apply h
  have hlength (p : Position) : Splice.landing splices (d.offsetAt p) .left ≤ after.text.length :=
    after_of_apply h ▸ landing_le_length hresolve (d.offsetAt_le p) .left
  rw [carried, carried, positionAt_le_positionAt_iff (hlength p) (hlength q)]
  exact landing_le_landing hresolve (offsetAt_mono hle) fun start hstops =>
    Bias.stopsAt_of_stopsAt (offsetAt_mono hle) hstops

end Document

/-- Where places keep their order, the range of a selection goes where its ends go. -/
theorem Selection.range_map {g : Position → Position} (hg : ∀ p q, p ≤ q → g p ≤ g q)
    (selection : Selection) :
    (⟨g selection.anchor, g selection.active⟩ : Selection).range.start =
        g selection.range.start ∧
      (⟨g selection.anchor, g selection.active⟩ : Selection).range.stop =
        g selection.range.stop := by
  obtain ⟨anchor, active⟩ := selection
  by_cases hle : anchor ≤ active
  · simp only [range, Range.between_of_le hle, Range.between_of_le (hg _ _ hle), and_self]
  · have hge : g active ≤ g anchor := hg _ _ (Position.le_of_lt (Position.not_le.mp hle))
    simp only [range, Range.between, dif_neg hle]
    split
    next hle' => exact ⟨Position.le_antisymm hle' hge, Position.le_antisymm hge hle'⟩
    next => exact ⟨rfl, rfl⟩

namespace Session

variable {s after : Session} {command : Command} {plan : EditPlan}
  {targets : Selection → CaretTarget} {goes : Selection → Selection} {primary : Selection}
  {others : List Selection} {edits : Nat} {rename : Bool}

/-- What a command plans and where it wants each selection to go. The command that deletes the
selections is left out: it places one caret, whatever is selected. -/
inductive Intends (s : Session) : Command → EditPlan → (Selection → CaretTarget) → Prop where
  | wrap (asked : Option Text) : Intends s (.surroundWithTag asked)
      (s.selections.foldl (fun plan selection => plan.add (s.wrapEdit asked selection).1) .empty)
      fun selection => (s.wrapEdit asked selection).2
  | insert : Intends s .insertSelfClosingTag
      (s.selections.foldl (fun plan selection => plan.add (s.selfClosingEdit selection).1) .empty)
      fun selection => (s.selfClosingEdit selection).2
  | unwrap {tag : Tag} (around : (s.selections.head?.map Selection.active).bind
        (s.document.surroundingTag? s.settings.limits) = some tag) :
      Intends s .deleteSurroundingPair
        (s.document.deletionPlan (s.document.lineDeletions (tag.range ::
          (s.document.partner? s.settings.limits tag).toList.map Tag.range)))
        s.keep
  | focus {spelling : Text} (dialect : s.dialect.emptyClassAttribute = some spelling) :
      Intends s .focusClass (s.classPlan spelling) (s.classTarget spelling)

/-- What each selection goes to when a command is carried out, and the session that comes of it. -/
def Sends (s : Session) (command : Command) (goes : Selection → Selection) (after : Session) :
    Prop :=
  ∃ plan targets splices, s.Intends command plan targets ∧
    s.document.apply plan = .ok (splices, after.document) ∧
    (goes = fun selection => (targets selection).resolve splices after.document) ∧
    after.selections = Selection.normalize (s.selections.map goes)

/-- Whether the first selection afterwards is the one that the first selection goes to, or the one
that this is merged into. -/
def KeepsPrimary (s : Session) (goes : Selection → Selection) (after : Session) : Prop :=
  ∃ primary first, s.selections.head? = some primary ∧ after.selections.head? = some first ∧
    Selection.Becomes (s.selections.map goes) (goes primary) first

/-! ## What is carried out -/

theorem exists_intends (h : s.execute command = .ok (.applied edits rename, after))
    (hcommand : command ≠ .deleteSelectionWithPairs) :
    ∃ plan targets, s.Intends command plan targets ∧
      (commit plan (s.selections.map targets)).result s = .ok (edits, after) := by
  by_cases hsome : s.selections = []
  · rw [execute_of_nil hsome] at h
    cases h
  · rw [execute_of_ne_nil hsome] at h
    cases command with
    | jumpToPartner =>
        rw [action, result_jumpToPartner] at h
        have hjump := Except.ok.inj h
        split at hjump
        next => cases hjump
        next => cases hjump
    | surroundWithTag asked =>
        rw [action, result_surroundWithTag] at h
        obtain ⟨count, hcommit, houtcome⟩ := commit_of_insertTags h
        obtain ⟨rfl, -⟩ := Outcome.applied.inj houtcome
        rw [List.foldl_map, List.map_map] at hcommit
        exact ⟨_, _, .wrap asked, hcommit⟩
    | insertSelfClosingTag =>
        rw [action, result_insertSelfClosingTag] at h
        obtain ⟨count, hcommit, houtcome⟩ := commit_of_insertTags h
        obtain ⟨rfl, -⟩ := Outcome.applied.inj houtcome
        rw [List.foldl_map, List.map_map] at hcommit
        exact ⟨_, _, .insert, hcommit⟩
    | deleteSurroundingPair =>
        rcases cases_of_deleteSurroundingPair h with
          ⟨missing, houtcome, -⟩ | ⟨tag, count, htag, hcommit, houtcome⟩
        · cases houtcome
        · obtain ⟨rfl, -⟩ := Outcome.applied.inj houtcome
          exact ⟨_, _, .unwrap htag, hcommit⟩
    | deleteSelectionWithPairs => exact absurd rfl hcommand
    | focusClass =>
        rcases cases_of_focusClass h with
          ⟨missing, houtcome, -⟩ | ⟨spelling, count, hspelling, hcommit, houtcome⟩
        · cases houtcome
        · split at houtcome
          next => cases houtcome
          next =>
            obtain ⟨rfl, -⟩ := Outcome.applied.inj houtcome
            exact ⟨_, _, .focus hspelling, hcommit⟩

/-- A command that is applied sends each selection somewhere. -/
theorem exists_sends (h : s.execute command = .ok (.applied edits rename, after))
    (hcommand : command ≠ .deleteSelectionWithPairs) : ∃ goes, s.Sends command goes after := by
  obtain ⟨plan, targets, hintends, hcommit⟩ := exists_intends h hcommand
  obtain ⟨splices, document, happly, -, rfl⟩ := commit_eq_ok_iff.mp hcommit
  refine ⟨_, plan, targets, splices, hintends, happly, rfl, ?_⟩
  rw [List.map_map]
  rfl

/-- The first of the new selections is the first of the normalized ones. -/
theorem Sends.exists_normalize_eq_cons (h : s.Sends command goes after)
    (hs : s.selections = primary :: others) :
    ∃ first later, Selection.normalize (s.selections.map goes) = first :: later ∧
      (s.KeepsPrimary goes after ↔
        Selection.Becomes (s.selections.map goes) (goes primary) first) := by
  obtain ⟨-, -, -, -, -, -, hafter⟩ := h
  have hsome : s.selections.map goes ≠ [] := by
    rw [hs]
    exact List.cons_ne_nil _ _
  obtain ⟨first, later, hfirst⟩ := List.exists_cons_of_ne_nil (Selection.normalize_ne_nil hsome)
  refine ⟨first, later, hfirst, ?_⟩
  simp [KeepsPrimary, hafter.trans hfirst, hs]

/-! ## Carets in what is written -/

/-- Where every selection gets a caret in what is written for it, the primary one stays primary just
when no other one starts in front of it, and none that starts where it does has its caret less far
into what is written. -/
theorem Sends.keepsPrimary_iff_of_writing {w : Writing} (h : s.Sends command goes after)
    (hw : w.Fits s.document s.selections) (hs : s.selections = primary :: others)
    (hintends : ∀ plan targets, s.Intends command plan targets →
      plan = w.plan s.selections ∧ targets = w.target s.document) :
    s.KeepsPrimary goes after ↔
      ∀ x ∈ s.selections, (w.range primary).start < (w.range x).start ∨
        (w.range primary).start = (w.range x).start ∧
          (w.lead primary).length ≤ (w.lead x).length := by
  have hprimary : primary ∈ s.selections := hs ▸ List.mem_cons_self
  obtain ⟨first, later, hfirst, hkeeps⟩ := h.exists_normalize_eq_cons hs
  obtain ⟨plan, targets, splices, hintended, happly, rfl, -⟩ := h
  obtain ⟨rfl, rfl⟩ := hintends plan targets hintended
  obtain ⟨rfl, hdocument⟩ : w.splices s.document s.selections = splices ∧
      (s.write w).document = after.document := by
    rw [Document.apply_of_resolve (Writing.resolve_plan hw)] at happly
    exact Prod.mk.inj (Except.ok.inj happly)
  rw [hkeeps, Selection.becomes_first_iff_of_isEmpty hfirst (List.mem_map_of_mem hprimary),
    List.forall_mem_map]
  · refine forall₂_congr fun x hx => ?_
    rw [← Writing.caretOffset_le_caretOffset_iff hw hprimary hx, ← hdocument]
    exact Document.positionAt_le_positionAt_iff (Writing.caretOffset_le_length hw hprimary)
      (Writing.caretOffset_le_length hw hx)
  · rw [List.forall_mem_map]
    exact fun x _ => beq_self_eq_true _

theorem Sends.keepsPrimary_iff_of_wrap {asked : Option Text}
    (h : s.Sends (.surroundWithTag asked) goes after) (hs : s.selections = primary :: others)
    (hvalid : s.IsValid) (hapart : s.selections.Pairwise fun a b => a.range.IsApart b.range) :
    s.KeepsPrimary goes after ↔
      ∀ x ∈ s.selections, primary.range.start < x.range.start ∨
        primary.range.start = x.range.start ∧
          ((s.wrapping asked).lead primary).length ≤ ((s.wrapping asked).lead x).length := by
  have hstart {x : Selection} (hx : x ∈ s.selections) :
      ((s.wrapping asked).range x).start = x.range.start := by
    obtain ⟨hanchor, hactive⟩ := hvalid x hx
    exact (Document.trimLineStart_le (Selection.isValid_range hanchor hactive).1).1
  rw [h.keepsPrimary_iff_of_writing (fits_wrapping hvalid hapart) hs]
  · refine forall₂_congr fun x hx => ?_
    rw [hstart hx, hstart (hs ▸ List.mem_cons_self)]
  · rintro plan targets ⟨⟩
    constructor
    · simp only [wrapEdit_eq]
      rfl
    · funext x
      rw [wrapEdit_eq]

theorem Sends.keepsPrimary_iff_of_insert (h : s.Sends .insertSelfClosingTag goes after)
    (hs : s.selections = primary :: others) (hvalid : s.IsValid) :
    s.KeepsPrimary goes after ↔ ∀ x ∈ s.selections, primary.active ≤ x.active := by
  rw [h.keepsPrimary_iff_of_writing (fits_selfClosing hvalid) hs]
  · refine forall₂_congr fun x hx => ?_
    change primary.active < x.active ∨ primary.active = x.active ∧
      (s.selfClosing.lead x).length ≤ (s.selfClosing.lead x).length ↔ _
    rw [and_iff_left (Nat.le_refl _), Position.ext_iff', Position.lt_def, Position.le_def]
    omega
  · rintro plan targets ⟨⟩
    constructor
    · simp only [selfClosingEdit_eq]
      rfl
    · funext x
      rw [selfClosingEdit_eq]

/-! ## Selections that are kept -/

/-- Where every selection stays on its characters, the primary one stays primary just when each one
in front of it ends up as the same caret. -/
theorem Sends.keepsPrimary_iff_of_unwrap (h : s.Sends .deleteSurroundingPair goes after)
    (hs : s.selections = primary :: others)
    (hapart : s.selections.Pairwise fun a b => a.range.IsApart b.range) :
    s.KeepsPrimary goes after ↔
      ∀ x ∈ s.selections, x.range.stop ≤ primary.range.start → goes x = goes primary := by
  obtain ⟨first, later, hfirst, hkeeps⟩ := h.exists_normalize_eq_cons hs
  obtain ⟨plan, targets, splices, ⟨around⟩, happly, hgoes, -⟩ := h
  let carried := s.document.carried splices after.document
  have hmono := Document.carried_le_carried happly
  have hrange (x : Selection) : (goes x).range.start = carried x.range.start ∧
      (goes x).range.stop = carried x.range.stop := by
    rw [hgoes]
    exact Selection.range_map hmono x
  have hothers : ∀ x ∈ s.selections, x = primary ∨ x.range.stop ≤ primary.range.start ∨
      primary.range.stop ≤ x.range.start := by
    rw [hs] at hapart ⊢
    rw [List.forall_mem_cons]
    exact ⟨.inl rfl, fun x hx => .inr ((List.pairwise_cons.mp hapart).1 x hx).symm⟩
  have hprimary : goes primary ∈ s.selections.map goes :=
    List.mem_map_of_mem (hs ▸ List.mem_cons_self)
  have hgap : Selection.IsGap (s.selections.map goes) (goes primary).range.start := by
    rw [Selection.IsGap, List.forall_mem_map]
    intro x hx
    rw [(hrange x).1, (hrange x).2, (hrange primary).1]
    rcases hothers x hx with rfl | hfront | hbehind
    · exact .inr (Position.le_refl _)
    · exact .inl (hmono _ _ hfront)
    · exact .inr (hmono _ _ (Position.le_trans primary.range.start_le_stop hbehind))
  rw [hkeeps, Selection.becomes_first_iff_of_isGap hfirst hprimary hgap, List.forall_mem_map]
  refine forall₂_congr fun x hx => ?_
  rw [(hrange x).2, (hrange primary).1]
  constructor
  · exact fun hsame hfront => hsame (hmono _ _ hfront)
  · intro hsame hfront
    rcases hothers x hx with rfl | hxfront | hbehind
    · rfl
    · exact hsame hxfront
    · -- nothing is left between the ends of both, so they are the same caret
      have hends : carried primary.range.stop ≤ carried x.range.start := hmono _ _ hbehind
      have hxends : carried x.range.start ≤ carried x.range.stop := hmono _ _ x.range.start_le_stop
      have hpends : carried primary.range.start ≤ carried primary.range.stop :=
        hmono _ _ primary.range.start_le_stop
      have hsame : (goes x).range = (goes primary).range := by
        rw [Range.ext_iff', (hrange x).1, (hrange x).2, (hrange primary).1, (hrange primary).2]
        simp only [Position.ext_iff', Position.le_def] at *
        omega
      refine Selection.eq_of_range_eq hsame (Range.isEmpty_of_stop_le ?_)
      rw [(hrange x).1, (hrange x).2]
      exact Position.le_trans hfront (Position.le_trans hpends hends)

/-! ## The primary selection -/

/-- A command that is applied keeps the primary selection primary just when no other selection comes
to be ahead of it. For wrapping this is when no selection starts in front of the primary one, and
none that starts where it does has its caret less far into its tag; for elements by themselves, when
none is active in front of where the primary one is; for unwrapping, when each selection in front of
the primary one becomes the same caret. -/
theorem keepsPrimary_iff (hs : s.selections = primary :: others) (hvalid : s.IsValid)
    (hapart : s.selections.Pairwise fun a b => a.range.IsApart b.range)
    (hcommand : command ≠ .deleteSelectionWithPairs)
    (h : s.execute command = .ok (.applied edits rename, after)) :
    (∃ goes, s.Sends command goes after) ∧
      ∀ goes, s.Sends command goes after →
        (s.KeepsPrimary goes after ↔
          ¬∃ x ∈ s.selections.map goes,
            Selection.IsAheadOf (s.selections.map goes) x (goes primary)) ∧
        (∀ asked, command = .surroundWithTag asked →
          (s.KeepsPrimary goes after ↔
            ∀ x ∈ s.selections, primary.range.start < x.range.start ∨
              primary.range.start = x.range.start ∧
                ((s.wrapping asked).lead primary).length ≤ ((s.wrapping asked).lead x).length)) ∧
        (command = .insertSelfClosingTag →
          (s.KeepsPrimary goes after ↔ ∀ x ∈ s.selections, primary.active ≤ x.active)) ∧
        (command = .deleteSurroundingPair →
          (s.KeepsPrimary goes after ↔
            ∀ x ∈ s.selections, x.range.stop ≤ primary.range.start → goes x = goes primary)) := by
  refine ⟨exists_sends h hcommand, fun goes hsends => ⟨?_, ?_, ?_, ?_⟩⟩
  · obtain ⟨first, later, hfirst, hkeeps⟩ := hsends.exists_normalize_eq_cons hs
    rw [hkeeps]
    exact Selection.becomes_first_iff hfirst (List.mem_map_of_mem (hs ▸ List.mem_cons_self))
  · rintro asked rfl
    exact hsends.keepsPrimary_iff_of_wrap hs hvalid hapart
  · rintro rfl
    exact hsends.keepsPrimary_iff_of_insert hs hvalid
  · rintro rfl
    exact hsends.keepsPrimary_iff_of_unwrap hs hapart

/-- Two carets, the earlier one first. -/
theorem keepsPrimary_of_carets :
    let s : Session := ⟨⟨['a', 'b'], .lf⟩, [.caret ⟨0, 0⟩, .caret ⟨0, 1⟩], .default, .other⟩
    let after : Session := ⟨⟨['<', 'd', 'i', 'v', ' ', '/', '>', 'a'] ++
      ['<', 'd', 'i', 'v', ' ', '/', '>', 'b'], .lf⟩, [.caret ⟨0, 4⟩, .caret ⟨0, 12⟩],
      .default, .other⟩
    s.IsValid ∧ (s.selections.Pairwise fun a b => a.range.IsApart b.range) ∧
      s.execute .insertSelfClosingTag = .ok (.applied 2 false, after) ∧
      ∃ goes, s.Sends .insertSelfClosingTag goes after ∧ s.KeepsPrimary goes after := by
  intro s after
  have hvalid : s.IsValid := by decide
  have hapart : s.selections.Pairwise fun a b => a.range.IsApart b.range := by decide
  have hresolve : ((s.selections.map s.selfClosingEdit).foldl (fun plan e => plan.add e.1)
      EditPlan.empty).resolve s.document =
        .ok [⟨0, 0, Wrap.selfClosingTag ['d', 'i', 'v']⟩,
          ⟨1, 1, Wrap.selfClosingTag ['d', 'i', 'v']⟩] := by cbv
  have hselections : Selection.normalize [.caret ⟨0, 4⟩, .caret ⟨0, 12⟩] = after.selections :=
    Selection.normalize_of_perm (List.Perm.refl _) (by decide)
  have hexecute : s.execute .insertSelfClosingTag = .ok (.applied 2 false, after) := by
    rw [execute_of_ne_nil (List.cons_ne_nil _ _), action, result_insertSelfClosingTag,
      result_insertTags_of_resolve hresolve]
    exact congrArg (fun selections => Except.ok (_, { after with selections })) hselections
  obtain ⟨⟨goes, hsends⟩, hall⟩ := keepsPrimary_iff rfl hvalid hapart (by decide) hexecute
  obtain ⟨-, -, hinsert, -⟩ := hall goes hsends
  exact ⟨hvalid, hapart, hexecute, goes, hsends, (hinsert rfl).mpr (by decide)⟩

/-- Two carets, the later one first: the first selection afterwards is that of the earlier one. -/
theorem not_keepsPrimary_of_carets :
    let s : Session := ⟨⟨['a', 'b'], .lf⟩, [.caret ⟨0, 1⟩, .caret ⟨0, 0⟩], .default, .other⟩
    let after : Session := ⟨⟨['<', 'd', 'i', 'v', ' ', '/', '>', 'a'] ++
      ['<', 'd', 'i', 'v', ' ', '/', '>', 'b'], .lf⟩, [.caret ⟨0, 4⟩, .caret ⟨0, 12⟩],
      .default, .other⟩
    s.IsValid ∧ (s.selections.Pairwise fun a b => a.range.IsApart b.range) ∧
      s.execute .insertSelfClosingTag = .ok (.applied 2 false, after) ∧
      (∃ goes, s.Sends .insertSelfClosingTag goes after) ∧
      ∀ goes, s.Sends .insertSelfClosingTag goes after → ¬s.KeepsPrimary goes after := by
  intro s after
  have hvalid : s.IsValid := by decide
  have hresolve : ((s.selections.map s.selfClosingEdit).foldl (fun plan e => plan.add e.1)
      EditPlan.empty).resolve s.document =
        .ok [⟨0, 0, Wrap.selfClosingTag ['d', 'i', 'v']⟩,
          ⟨1, 1, Wrap.selfClosingTag ['d', 'i', 'v']⟩] := by cbv
  have hselections : Selection.normalize [.caret ⟨0, 12⟩, .caret ⟨0, 4⟩] = after.selections :=
    Selection.normalize_of_perm (List.Perm.swap _ _ _) (by decide)
  have hexecute : s.execute .insertSelfClosingTag = .ok (.applied 2 false, after) := by
    rw [execute_of_ne_nil (List.cons_ne_nil _ _), action, result_insertSelfClosingTag,
      result_insertTags_of_resolve hresolve]
    exact congrArg (fun selections => Except.ok (_, { after with selections })) hselections
  refine ⟨hvalid, by decide, hexecute, exists_sends hexecute (by decide), ?_⟩
  intro goes hsends
  rw [hsends.keepsPrimary_iff_of_insert rfl hvalid]
  decide

end Session

end MarkupPairs
