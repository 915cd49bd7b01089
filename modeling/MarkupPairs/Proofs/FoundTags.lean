import MarkupPairs.Proofs.TagsWithin
import MarkupPairs.Tag.Surrounding

/-!
# The tags that the searches find

Three searches find tags: under a position, around a position and within a range. Whichever finds a
tag, and with whatever limits, the tag is written in the document, and its name is nothing or starts
with a letter.
-/

namespace MarkupPairs.Document

variable {d : Document} {limits : ScanLimits} {p : Position} {r : Range} {t : Tag}

/-- Whether one of the searches finds a tag. -/
inductive Finds (d : Document) (t : Tag) : Prop where
  | under {limits : ScanLimits} {p : Position} (h : d.enclosingTag? limits p = some t)
  | around {limits : ScanLimits} {p : Position} (h : d.surroundingTag? limits p = some t)
  | within {r : Range} (h : t ∈ d.tagsIn r)

/-- The tag around a position is the one of some position. -/
theorem exists_enclosingTag? (h : d.surroundingTag? limits p = some t) :
    ∃ q, d.enclosingTag? limits q = some t := by
  have hancestor (h : d.ancestorTag? limits p = some t) :
      ∃ q, d.enclosingTag? limits q = some t := by
    obtain ⟨q, -, hq⟩ := Option.bind_eq_some_iff.mp h
    exact ⟨q, hq⟩
  rw [surroundingTag?] at h
  split at h
  next tag htag =>
    split at h
    next => exact ⟨p, h ▸ htag⟩
    next => exact hancestor h
  next => exact hancestor h

theorem Finds.exists_writtenIn (h : d.Finds t) :
    ∃ pre inner post, t.WrittenIn d pre inner post := by
  cases h with
  | under h => exact Document.exists_writtenIn h
  | around h =>
      obtain ⟨q, hq⟩ := exists_enclosingTag? h
      exact Document.exists_writtenIn hq
  | within h => exact exists_writtenIn_of_mem_tagsIn h

theorem Finds.isName (h : d.Finds t) : Tag.IsName t.name := by
  obtain ⟨pre, inner, post, hwritten⟩ := h.exists_writtenIn
  exact Tag.isName_of_parse? hwritten.parse_eq

end MarkupPairs.Document
