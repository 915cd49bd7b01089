import MarkupPairs.Proofs.CommandEffect
import MarkupPairs.Proofs.PairDeletion
import MarkupPairs.Proofs.Splicing
import MarkupPairs.Proofs.Wrapping

/-!
# Inserting tags at selections

A command that inserts tags writes a text for every selection and puts a caret inside it. As long as
no two of the ranges that it writes over overlap it is not refused, and the new text is known: what
is written takes the place of the ranges all at once.
-/

namespace MarkupPairs

/-- Whether one of two ranges stops before the other one starts. They may touch. -/
def Range.IsApart (a b : Range) : Prop := a.stop ≤ b.start ∨ b.stop ≤ a.start

instance (a b : Range) : Decidable (a.IsApart b) := inferInstanceAs (Decidable (_ ∨ _))

namespace Range

variable {a b : Range} {d : Document}

theorem isApart_empty (p q : Position) : (empty p).IsApart (empty q) := Position.le_total p q

theorem IsApart.not_conflict (h : a.IsApart b) : ¬d.Conflict a b := by
  have ha := a.start_le_stop
  have hb := b.start_le_stop
  simp only [IsApart, Position.le_def] at h ha hb
  rintro (⟨cell, -, hcovers, hcovers'⟩ | ⟨-, hstart, hstop⟩ | ⟨-, hstart, hstop⟩)
  · rw [covers_iff] at hcovers hcovers'
    simp only [Position.le_def, Position.lt_def] at hcovers hcovers'
    omega
  · simp only [Position.lt_def] at hstart hstop
    omega
  · simp only [Position.lt_def] at hstart hstop
    omega

end Range

/-- Edits that change something are planned as they come. -/
theorem EditPlan.edits_foldl_add {α : Type} {f : α → Edit} {xs : List α}
    (h : ∀ x ∈ xs, (f x).isNoop = false) (plan : EditPlan) :
    (xs.foldl (fun plan x => plan.add (f x)) plan).edits = plan.edits ++ xs.map f := by
  induction xs generalizing plan with
  | nil => exact (List.append_nil _).symm
  | cons x xs ih =>
      obtain ⟨hx, hxs⟩ := List.forall_mem_cons.mp h
      rw [List.foldl_cons, ih hxs, add, dif_neg (by rw [hx]; decide)]
      simp

/-- What a command writes for each selection: the range in place of which it writes, the text up to
where the caret goes, and the rest of the text. -/
structure Writing where
  range : Selection → Range
  lead : Selection → Text
  rest : Selection → Text
  lead_ne_nil : ∀ selection, lead selection ≠ []

namespace Writing

variable {w : Writing} {d : Document} {selections : List Selection} {selection : Selection}

def text (w : Writing) (selection : Selection) : Text := w.lead selection ++ w.rest selection

def edit (w : Writing) (selection : Selection) : Edit := ⟨w.range selection, w.text selection⟩

def target (w : Writing) (d : Document) (selection : Selection) : CaretTarget :=
  .place (d.offsetAt (w.range selection).start) (w.lead selection).length

def splice (w : Writing) (d : Document) (selection : Selection) : Splice :=
  EditPlan.spliceOf d (w.edit selection)

/-- The selections in the order of what is written for them. -/
def order (w : Writing) (d : Document) (selections : List Selection) : List Selection :=
  selections.mergeSort fun a b => (w.splice d a).precedes (w.splice d b)

def splices (w : Writing) (d : Document) (selections : List Selection) : List Splice :=
  (w.order d selections).map (w.splice d)

def plan (w : Writing) (selections : List Selection) : EditPlan :=
  selections.foldl (fun plan selection => plan.add (w.edit selection)) .empty

/-- Whether the ranges lie within a document, and none overlaps another one. -/
structure Fits (w : Writing) (d : Document) (selections : List Selection) : Prop where
  isValid : ∀ selection ∈ selections,
    d.isValid (w.range selection).start ∧ d.isValid (w.range selection).stop
  isApart : selections.Pairwise fun a b => (w.range a).IsApart (w.range b)

theorem order_perm (w : Writing) (d : Document) (selections : List Selection) :
    (w.order d selections).Perm selections := List.mergeSort_perm _ _

theorem pairwise_order (w : Writing) (d : Document) (selections : List Selection) :
    (w.order d selections).Pairwise fun a b => (w.splice d a).precedes (w.splice d b) := by
  apply List.pairwise_mergeSort
  · exact fun _ _ _ => Splice.precedes_trans
  · exact fun a b => Splice.precedes_total _ _

theorem text_ne_nil (w : Writing) (selection : Selection) : w.text selection ≠ [] :=
  List.append_ne_nil_of_left_ne_nil (w.lead_ne_nil selection) _

theorem length_lead_pos (w : Writing) (selection : Selection) : 0 < (w.lead selection).length :=
  List.length_pos_iff.mpr (w.lead_ne_nil selection)

theorem length_lead_le (w : Writing) (selection : Selection) :
    (w.lead selection).length ≤ (w.text selection).length := by
  rw [text, List.length_append]
  exact Nat.le_add_right _ _

theorem isNoop_edit (w : Writing) (selection : Selection) : (w.edit selection).isNoop = false := by
  simp [Edit.isNoop, edit, w.text_ne_nil selection]

theorem edits_plan (w : Writing) (selections : List Selection) :
    (w.plan selections).edits = selections.map w.edit :=
  EditPlan.edits_foldl_add (fun selection _ => w.isNoop_edit selection) .empty

/-- What fits resolves to its splices in order. -/
theorem resolve_plan (h : w.Fits d selections) :
    (w.plan selections).resolve d = .ok (w.splices d selections) := by
  have hwithin : (w.plan selections).IsWithin d := by
    rw [EditPlan.IsWithin, edits_plan, List.forall_mem_map]
    exact h.isValid
  have hclear : (w.plan selections).edits.Pairwise fun a b => ¬d.Conflict a.range b.range := by
    rw [edits_plan, List.pairwise_map]
    exact h.isApart.imp Range.IsApart.not_conflict
  have hplaced : (w.plan selections).placed d =
      (w.order d selections).map fun selection => (w.range selection, w.splice d selection) := by
    rw [EditPlan.placed, edits_plan, List.map_map]
    exact (List.map_mergeSort (s := fun x y : Range × Splice => x.2.precedes y.2)
      (f := fun selection => (w.range selection, w.splice d selection)) fun _ _ _ _ => rfl).symm
  rw [EditPlan.resolve_eq_ok_iff]
  refine ⟨hwithin, (EditPlan.pairwise_placed_iff hwithin).mpr hclear, ?_⟩
  rw [hplaced, List.map_map]
  rfl

end Writing

namespace Session

variable {s : Session} {w : Writing} {asked : Option Text}

/-- The session once something is written for every selection. -/
def write (s : Session) (w : Writing) : Session :=
  let splices := w.splices s.document s.selections
  let document := ⟨Splice.interleave s.document.text 0 splices, s.document.ending⟩
  { s with
    document
    selections := Selection.normalize (s.selections.map fun selection =>
      (w.target s.document selection).resolve splices document) }

/-- What fits is written, with an edit for every selection. -/
theorem insertTags_eq (h : w.Fits s.document s.selections) :
    (insertTags (s.selections.map fun selection =>
        (w.edit selection, w.target s.document selection))).result s =
      .ok (.applied s.selections.length s.settings.autoRename, s.write w) := by
  have hcommit : (commit (w.plan s.selections) (s.selections.map (w.target s.document))).result s =
      .ok (s.selections.length, s.write w) := by
    rw [commit_eq_ok_iff]
    refine ⟨_, _, Document.apply_of_resolve (Writing.resolve_plan h), ?_, ?_⟩
    · rw [Writing.splices, List.length_map, (w.order_perm _ _).length_eq]
    · rw [write, List.map_map]
      rfl
  rw [result_insertTags, List.foldl_map, List.map_map]
  change ((commit (w.plan s.selections) (s.selections.map (w.target s.document))).result s).map
    _ = _
  rw [hcommit]
  rfl

/-- Wrapping writes a pair of tags. In front of the caret is the `<` of the first one, or all of it
where there is nothing to wrap. -/
def wrapping (s : Session) (asked : Option Text) : Writing where
  range := s.wrapRange
  lead selection :=
    let shape := s.document.shape (s.wrapRange selection)
    let content := s.document.slice (s.wrapRange selection)
    if shape = .empty then Wrap.openTag (s.wrapName asked shape)
    else Wrap.margin shape content ++ ['<']
  rest selection :=
    let shape := s.document.shape (s.wrapRange selection)
    let content := s.document.slice (s.wrapRange selection)
    let name := s.wrapName asked shape
    if shape = .empty then Wrap.closeTag name
    else name ++ '>' :: (Wrap.body shape s.settings.indent.text content ++ Wrap.closeTag name)
  lead_ne_nil selection := by
    dsimp only
    split
    · exact List.cons_ne_nil _ _
    · simp

/-- An element by itself has its name in front of the caret. -/
def selfClosing (s : Session) : Writing where
  range selection := .empty selection.active
  lead _ := '<' :: s.settings.selfClosingTag
  rest _ := [' ', '/', '>']
  lead_ne_nil _ := List.cons_ne_nil _ _

theorem wrapEdit_eq (s : Session) (asked : Option Text) (selection : Selection) :
    s.wrapEdit asked selection =
      ((s.wrapping asked).edit selection, (s.wrapping asked).target s.document selection) := by
  simp only [wrapEdit, Writing.edit, Writing.text, Writing.target, wrapping]
  split
  next hempty =>
    rw [hempty]
    simp [wrapped, Wrap.inline, Wrap.openTag]
  next hsome =>
    rw [wrapped_eq _ _ _ hsome]
    simp [Wrap.openTag]

theorem selfClosingEdit_eq (s : Session) (selection : Selection) :
    s.selfClosingEdit selection =
      (s.selfClosing.edit selection, s.selfClosing.target s.document selection) := by
  simp only [selfClosingEdit, Writing.edit, Writing.text, Writing.target, selfClosing,
    Wrap.selfClosingTag, List.length_cons, Nat.add_comm 1]
  rfl

theorem fits_wrapping (hvalid : s.IsValid)
    (hapart : s.selections.Pairwise fun a b => a.range.IsApart b.range) :
    (s.wrapping asked).Fits s.document s.selections := by
  have hrange {selection : Selection} (hselection : selection ∈ s.selections) :=
    Selection.isValid_range (hvalid selection hselection).1 (hvalid selection hselection).2
  refine ⟨?_, ?_⟩
  · intro selection hselection
    exact Document.isValid_trimLineStart (hrange hselection).1 (hrange hselection).2
  · apply hapart.imp_of_mem
    intro a b ha hb h
    obtain ⟨hastart, hastop⟩ := Document.trimLineStart_le (hrange ha).1
    obtain ⟨hbstart, hbstop⟩ := Document.trimLineStart_le (hrange hb).1
    rcases h with h | h
    · exact .inl (Position.le_trans hastop (hbstart.symm ▸ h))
    · exact .inr (Position.le_trans hbstop (hastart.symm ▸ h))

theorem fits_selfClosing (hvalid : s.IsValid) : s.selfClosing.Fits s.document s.selections := by
  refine ⟨fun selection hselection => ?_, ?_⟩
  · exact ⟨(hvalid selection hselection).2, (hvalid selection hselection).2⟩
  · exact List.pairwise_of_forall fun a b => Range.isApart_empty _ _

theorem execute_surroundWithTag_eq (hsome : s.selections ≠ []) (hvalid : s.IsValid)
    (hapart : s.selections.Pairwise fun a b => a.range.IsApart b.range) :
    s.execute (.surroundWithTag asked) =
      .ok (.applied s.selections.length s.settings.autoRename, s.write (s.wrapping asked)) := by
  rw [← insertTags_eq (fits_wrapping hvalid hapart)]
  rw [execute_of_ne_nil hsome, action, result_surroundWithTag, funext (s.wrapEdit_eq asked)]

theorem execute_insertSelfClosingTag_eq (hsome : s.selections ≠ []) (hvalid : s.IsValid) :
    s.execute .insertSelfClosingTag =
      .ok (.applied s.selections.length s.settings.autoRename, s.write s.selfClosing) := by
  rw [← insertTags_eq (fits_selfClosing hvalid)]
  rw [execute_of_ne_nil hsome, action, result_insertSelfClosingTag, funext s.selfClosingEdit_eq]

end Session

end MarkupPairs
