import MarkupPairs.Proofs.FoundTags
import MarkupPairs.Proofs.InsertedTags
import MarkupPairs.Proofs.Unwrapping

/-!
# Commands that are never refused

Jumping and unwrapping go by what the search for tags finds, which is in the document wherever the
selections are. The other commands write over the selections themselves, or delete them. They are
not refused either, as long as the selections lie within the document and none overlaps another one.
Going to the class list is left out: a dialect may have none.
-/

namespace MarkupPairs

namespace Document

variable {d : Document} {limits : ScanLimits} {p : Position} {t u : Tag}

theorem isValid_of_surroundingTag? (h : d.surroundingTag? limits p = some t) :
    d.isValid t.range.start ∧ d.isValid t.range.stop := by
  obtain ⟨pre, inner, post, hwritten⟩ := (Finds.around h).exists_writtenIn
  exact ⟨hwritten.divided.isValid, hwritten.dividedAt_stop.isValid⟩

end Document

namespace Session

variable {s : Session} {command : Command}

/-- Whether a command is carried out or finds nothing to do. -/
def Accepts (s : Session) (command : Command) : Prop :=
  ∃ outcome after, s.execute command = .ok (outcome, after)

theorem accepts_jumpToPartner (hsome : s.selections ≠ []) : s.Accepts .jumpToPartner :=
  ⟨_, _, (execute_of_ne_nil hsome _).trans (result_jumpToPartner s)⟩

theorem accepts_deleteSurroundingPair (hsome : s.selections ≠ []) :
    s.Accepts .deleteSurroundingPair := by
  cases htag : (s.selections.head?.map Selection.active).bind
      (s.document.surroundingTag? s.settings.limits) with
  | none =>
      refine ⟨.notFound .surroundingTag, s, ?_⟩
      rw [execute_of_ne_nil hsome, action, result_deleteSurroundingPair, htag]
  | some tag =>
      by_cases hpartner : tag.isSelfClosing ∨
          (s.document.partner? s.settings.limits tag).isSome
      · obtain ⟨p, -, hp⟩ := Option.bind_eq_some_iff.mp htag
        have hvalid : RangeSet.AllEnds (s.document.isValid ·)
            (tag.range :: (s.document.partner? s.settings.limits tag).toList.map Tag.range) := by
          rw [RangeSet.allEnds_cons]
          refine ⟨Document.isValid_of_surroundingTag? hp, ?_⟩
          rw [RangeSet.AllEnds, List.forall_mem_map]
          intro partner hmem
          exact Document.isValid_of_partner? (Option.mem_toList.mp hmem)
        obtain ⟨count, after, hexecute, -⟩ :=
          exists_execute_deleteSurroundingPair htag hpartner rfl hvalid
        exact ⟨_, _, hexecute⟩
      · refine ⟨.notFound .matchingPair, s, ?_⟩
        have hmissing : (!tag.isSelfClosing &&
            (s.document.partner? s.settings.limits tag).isNone) = true := by
          simpa using hpartner
        rw [execute_of_ne_nil hsome, action, result_deleteSurroundingPair, htag]
        exact if_pos hmissing

/-- Jumping to a partner and deleting the surrounding pair are never refused, whatever is selected.
Where the selections lie within the document and none overlaps another one, the other commands are
not refused either, whatever the names and limits are set to. -/
theorem accepts_of_isApart (hsome : s.selections ≠ []) :
    s.Accepts .jumpToPartner ∧ s.Accepts .deleteSurroundingPair ∧
      (s.IsValid → (s.selections.Pairwise fun a b => a.range.IsApart b.range) →
        (∀ asked, s.Accepts (.surroundWithTag asked)) ∧ s.Accepts .insertSelfClosingTag ∧
          s.Accepts .deleteSelectionWithPairs) := by
  refine ⟨accepts_jumpToPartner hsome, accepts_deleteSurroundingPair hsome, ?_⟩
  intro hvalid hapart
  refine ⟨fun asked => ⟨_, _, execute_surroundWithTag_eq hsome hvalid hapart⟩,
    ⟨_, _, execute_insertSelfClosingTag_eq hsome hvalid⟩, ?_⟩
  obtain ⟨count, after, hexecute, -⟩ := exists_execute_deleteSelectionWithPairs hsome hvalid
  exact ⟨_, _, hexecute⟩

/-- A selection with two carets at its end, under settings without names and limits. -/
theorem accepts_of_isApart_touching :
    let settings : Settings := ⟨[], [], [], false, .spaces 0, ⟨0, 0, 0⟩⟩
    let s : Session := ⟨⟨['<', 'a', '>'], .lf⟩,
      [⟨⟨0, 3⟩, ⟨0, 1⟩⟩, .caret ⟨0, 3⟩, .caret ⟨0, 3⟩], settings, .other⟩
    s.selections ≠ [] ∧ s.IsValid ∧
      (s.selections.Pairwise fun a b => a.range.IsApart b.range) ∧
      s.Accepts .jumpToPartner ∧ s.Accepts .deleteSurroundingPair ∧
      (∀ asked, s.Accepts (.surroundWithTag asked)) ∧ s.Accepts .insertSelfClosingTag ∧
      s.Accepts .deleteSelectionWithPairs := by
  intro settings s
  have hsome : s.selections ≠ [] := List.cons_ne_nil _ _
  have hvalid : s.IsValid := by decide
  have hapart : s.selections.Pairwise fun a b => a.range.IsApart b.range := by decide
  obtain ⟨hjump, hdelete, hothers⟩ := accepts_of_isApart hsome
  exact ⟨hsome, hvalid, hapart, hjump, hdelete, hothers hvalid hapart⟩

end Session

end MarkupPairs
