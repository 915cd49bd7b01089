import MarkupPairs.Proofs.TagMarks

/-!
# The segments of a text

A `<` starts a segment, which goes on to the next angle or, without one, to the end of the text. So
each segment is closed by a `>` or is followed by a `<` or by nothing, and a text is taken apart
into its segments and what stands between them.
-/

namespace MarkupPairs

namespace Text

def isAngle (c : Char) : Bool := c == '<' || c == '>'

/-- The segments that the `<` of a text start, in reading order. -/
def segments : Text → List Segment
  | [] => []
  | c :: rest =>
    if c = '<' then
      ⟨rest.takeWhile (!isAngle ·), (rest.dropWhile (!isAngle ·)).head? == some '>'⟩ ::
        segments rest
    else segments rest

variable {s t : Text} {c : Char}

theorem isAngle_iff : isAngle c ↔ c = '<' ∨ c = '>' := by
  simp [isAngle]

theorem IsPlain.not_isAngle (hs : s.IsPlain) : ∀ c ∈ s, !isAngle c := by
  intro c hc
  obtain ⟨hopen, hclose⟩ := hs c hc
  simp [isAngle, hopen, hclose]

/-- A text is plain up to its first angle. -/
theorem exists_isPlain_append (t : Text) :
    ∃ s rest : Text, t = s ++ rest ∧ s.IsPlain ∧ ∀ c ∈ rest.head?, isAngle c := by
  refine ⟨t.takeWhile (!isAngle ·), t.dropWhile (!isAngle ·),
    List.takeWhile_append_dropWhile.symm, ?_, ?_⟩
  · intro c hc
    have hangle := List.mem_takeWhile_imp hc
    simpa [isAngle] using hangle
  · intro c hc
    have hangle := List.head?_dropWhile_not (!isAngle ·) t
    rw [hc] at hangle
    simpa using hangle

theorem segments_other (hc : c ≠ '<') : segments (c :: t) = segments t := by
  rw [segments, if_neg hc]

theorem segments_plain (hs : s.IsPlain) : segments (s ++ t) = segments t := by
  induction s with
  | nil => rfl
  | cons c s ih =>
      obtain ⟨⟨hopen, -⟩, hs⟩ := List.forall_mem_cons.mp hs
      rw [List.cons_append, segments_other hopen, ih hs]

/-- A `<` and the plain text behind it are a segment when an angle or nothing follows. -/
theorem segments_open (hs : s.IsPlain) (ht : ∀ c ∈ t.head?, isAngle c) :
    segments ('<' :: (s ++ t)) = ⟨s, t.head? == some '>'⟩ :: segments t := by
  have hnone : t.takeWhile (!isAngle ·) = [] ∧ t.dropWhile (!isAngle ·) = t := by
    cases t with
    | nil => exact ⟨rfl, rfl⟩
    | cons c t => simp [ht c rfl]
  rw [segments, if_pos rfl, List.takeWhile_append_of_pos hs.not_isAngle,
    List.dropWhile_append_of_pos hs.not_isAngle, segments_plain hs, hnone.1, hnone.2,
    List.append_nil]

theorem segments_angled (hs : s.IsPlain) : segments (s.angled ++ t) = ⟨s, true⟩ :: segments t := by
  have hangle : ∀ c ∈ ('>' :: t).head?, isAngle c := by simp [isAngle]
  rw [angled_append, segments_open hs hangle, segments_other (by decide)]
  rfl

theorem segments_unclosed (hs : s.IsPlain) (ht : ∀ c ∈ t.head?, c = '<') :
    segments ('<' :: (s ++ t)) = ⟨s, false⟩ :: segments t := by
  have hclose : t.head? ≠ some '>' := fun hc => absurd (ht '>' hc) (by decide)
  rw [segments_open hs fun c hc => isAngle_iff.mpr (.inl (ht c hc)), beq_eq_false_iff_ne.mpr hclose]

/-- Induction over a text by its segments. -/
@[elab_as_elim]
theorem segmentInduction {motive : Text → Prop} (nil : motive [])
    (other : ∀ (c : Char) (t : Text), c ≠ '<' → motive t → motive (c :: t))
    (closed : ∀ s t : Text, s.IsPlain → motive t → motive (s.angled ++ t))
    (unclosed : ∀ s t : Text, s.IsPlain → (∀ c ∈ t.head?, c = '<') → motive t →
      motive ('<' :: (s ++ t))) : (t : Text) → motive t
  | [] => nil
  | c :: t => by
      by_cases hc : c = '<'
      · subst c
        obtain ⟨s, rest, rfl, hs, hrest⟩ := exists_isPlain_append t
        cases rest with
        | nil =>
            exact unclosed s [] hs (fun c hc => by cases hc) nil
        | cons c rest =>
            rcases isAngle_iff.mp (hrest c rfl) with rfl | rfl
            · exact unclosed s _ hs (fun c hc => (Option.some.inj hc).symm)
                (segmentInduction nil other closed unclosed ('<' :: rest))
            · rw [← angled_append]
              exact closed s rest hs (segmentInduction nil other closed unclosed rest)
      · exact other c t hc (segmentInduction nil other closed unclosed t)
  termination_by t => t.length

end Text

end MarkupPairs
