import MarkupPairs.Proofs.SelectedRange

/-!
# Selections in order

Selections are normalized by sorting them and merging those that overlap. What comes of that is in
reading order and apart, though touching is allowed; its ends are ends of what went in. Carets do
not overlap, so all that carets lose is repetitions.
-/

namespace MarkupPairs

theorem Range.start_union {a b : Range} (h : a.start ≤ b.start) : (a.union b).start = a.start :=
  if_pos h

theorem Range.stop_le_union (a b : Range) : a.stop ≤ (a.union b).stop := Position.le_max_left _ _

namespace Selection

/-- Whether selections come in reading order, none before the one in front of it stops, and no two
cover the same range. -/
def IsOrdered (selections : List Selection) : Prop :=
  selections.Pairwise fun a b => a.range.stop ≤ b.range.start ∧ a.range ≠ b.range

/-- Whether the ends of every selection have a property. -/
def AllEnds (P : Position → Prop) (selections : List Selection) : Prop :=
  ∀ s ∈ selections, P s.anchor ∧ P s.active

instance (P : Position → Prop) [DecidablePred P] (selections : List Selection) :
    Decidable (AllEnds P selections) := List.decidableBAll _ selections

variable {selections rest : List Selection} {last s : Selection} {P : Position → Prop}

@[simp] theorem range_caret (p : Position) : (caret p).range = Range.empty p :=
  Range.between_of_le (Position.le_refl p)

theorem shape_range_caret (d : Document) (p : Position) : d.shape (caret p).range = .empty := by
  rw [range_caret]
  exact if_pos (beq_self_eq_true p)

theorem moveTo_caret (p q : Position) : (caret p).moveTo q = caret q :=
  if_pos (beq_self_eq_true p)

/-- A selection from the start of a range to its stop covers the range. -/
@[simp] theorem range_ends (r : Range) : (⟨r.start, r.stop⟩ : Selection).range = r :=
  Range.between_of_le r.start_le_stop

theorem eq_caret (h : s.isEmpty) : s = caret s.active := by
  obtain ⟨anchor, active⟩ := s
  obtain rfl : anchor = active := beq_iff_eq.mp h
  rfl

theorem precedes_iff {a b : Selection} : a.precedes b ↔
    a.range.start < b.range.start ∨
      a.range.start = b.range.start ∧ a.range.stop ≤ b.range.stop := by
  simp [precedes]

theorem sorted_mergeSort (selections : List Selection) :
    (selections.mergeSort precedes).Pairwise fun a b => a.precedes b := by
  apply List.pairwise_mergeSort
  · intro a b c hab hbc
    simp only [precedes_iff, Position.ext_iff', Position.lt_def, Position.le_def] at *
    omega
  · intro a b
    simp only [Bool.or_eq_true, precedes_iff, Position.ext_iff', Position.lt_def,
      Position.le_def]
    omega

theorem pairwise_mergeSort (selections : List Selection) :
    (selections.mergeSort precedes).Pairwise fun a b => a.range.start ≤ b.range.start := by
  apply (sorted_mergeSort selections).imp
  intro a b hab
  rcases precedes_iff.mp hab with hlt | ⟨heq, -⟩
  · exact Position.le_of_lt hlt
  · exact Position.le_of_eq heq

theorem mergeFrom_ne_nil (last : Selection) (rest : List Selection) :
    mergeFrom last rest ≠ [] := by
  fun_induction mergeFrom last rest with
  | case1 => exact List.cons_ne_nil _ _
  | case2 last s rest hlt cover ih => exact ih
  | case3 last s rest hle heq ih => exact ih
  | case4 => exact List.cons_ne_nil _ _

/-- Nothing comes in front of what the merging starts from, and nothing stops before that does. -/
theorem range_le_of_mem_mergeFrom
    (h : (last :: rest).Pairwise fun a b => a.range.start ≤ b.range.start) :
    ∀ s ∈ mergeFrom last rest,
      last.range.start ≤ s.range.start ∧ last.range.stop ≤ s.range.stop := by
  fun_induction mergeFrom last rest with
  | case1 last =>
      rw [List.forall_mem_singleton]
      exact ⟨Position.le_refl _, Position.le_refl _⟩
  | case2 last s rest hlt cover ih =>
      obtain ⟨hlast, hrest⟩ := List.pairwise_cons.mp h
      obtain ⟨hs, hlater⟩ := List.forall_mem_cons.mp hlast
      have hstart : cover.start = last.range.start := Range.start_union hs
      have hcover := ih (List.pairwise_cons.mpr ⟨by rwa [range_ends, hstart], hrest.of_cons⟩)
      intro x hx
      obtain ⟨hxstart, hxstop⟩ := hcover x hx
      rw [range_ends] at hxstart hxstop
      exact ⟨hstart ▸ hxstart, Position.le_trans (Range.stop_le_union _ _) hxstop⟩
  | case3 last s rest hle heq ih =>
      exact ih (h.sublist (.cons_cons _ (List.sublist_cons_self _ _)))
  | case4 last s rest hle hne ih =>
      have hbehind : last.range.stop ≤ s.range.start := Position.not_lt.mp hle
      rw [List.forall_mem_cons]
      refine ⟨⟨Position.le_refl _, Position.le_refl _⟩, ?_⟩
      intro x hx
      obtain ⟨hstart, hstop⟩ := ih h.of_cons x hx
      exact ⟨Position.le_trans last.range.start_le_stop (Position.le_trans hbehind hstart),
        Position.le_trans hbehind (Position.le_trans s.range.start_le_stop hstop)⟩

theorem isOrdered_mergeFrom
    (h : (last :: rest).Pairwise fun a b => a.range.start ≤ b.range.start) :
    IsOrdered (mergeFrom last rest) := by
  fun_induction mergeFrom last rest with
  | case1 last => exact List.pairwise_singleton _ _
  | case2 last s rest hlt cover ih =>
      obtain ⟨hlast, hrest⟩ := List.pairwise_cons.mp h
      obtain ⟨hs, hlater⟩ := List.forall_mem_cons.mp hlast
      have hstart : cover.start = last.range.start := Range.start_union hs
      exact ih (List.pairwise_cons.mpr ⟨by rwa [range_ends, hstart], hrest.of_cons⟩)
  | case3 last s rest hle heq ih =>
      exact ih (h.sublist (.cons_cons _ (List.sublist_cons_self _ _)))
  | case4 last s rest hle hne ih =>
      refine List.pairwise_cons.mpr ⟨?_, ih h.of_cons⟩
      intro x hx
      obtain ⟨hstart, hstop⟩ := range_le_of_mem_mergeFrom h.of_cons x hx
      have hbehind : last.range.stop ≤ s.range.start := Position.not_lt.mp hle
      refine ⟨Position.le_trans hbehind hstart, fun heq => hne ?_⟩
      -- with the range of `last` also behind `last`, both are empty and `s` is in between
      have hle := last.range.start_le_stop
      have hsle := s.range.start_le_stop
      rw [← heq] at hstart hstop
      simp only [Range.ext_iff', Position.ext_iff', Position.le_def] at *
      omega

theorem allEnds_mergeFrom (hlast : P last.anchor ∧ P last.active) (hrest : AllEnds P rest) :
    AllEnds P (mergeFrom last rest) := by
  fun_induction mergeFrom last rest with
  | case1 last => exact List.forall_mem_singleton.mpr hlast
  | case2 last s rest hlt cover ih =>
      obtain ⟨hs, hrest⟩ := List.forall_mem_cons.mp hrest
      exact ih (Range.ends_union (Range.ends_between hlast.1 hlast.2)
        (Range.ends_between hs.1 hs.2)) hrest
  | case3 last s rest hle heq ih => exact ih hlast (List.forall_mem_cons.mp hrest).2
  | case4 last s rest hle hne ih =>
      obtain ⟨hs, hrest⟩ := List.forall_mem_cons.mp hrest
      exact List.forall_mem_cons.mpr ⟨hlast, ih hs hrest⟩

/-- Of carets in order only the repetitions go. -/
theorem mem_mergeFrom_of_isEmpty
    (h : (last :: rest).Pairwise fun a b => a.range.start ≤ b.range.start)
    (hempty : ∀ x ∈ last :: rest, x.isEmpty) : s ∈ mergeFrom last rest ↔ s ∈ last :: rest := by
  induction rest generalizing last with
  | nil => rfl
  | cons x rest ih =>
      obtain ⟨hlast, hrest⟩ := List.forall_mem_cons.mp hempty
      obtain ⟨hx, hlater⟩ := List.forall_mem_cons.mp hrest
      have hle : last.range.start ≤ x.range.start :=
        (List.pairwise_cons.mp h).1 x List.mem_cons_self
      rw [eq_caret hlast, eq_caret hx, range_caret, range_caret] at hle
      have hapart : ¬x.range.start < last.range.stop := by
        rw [eq_caret hlast, eq_caret hx, range_caret, range_caret]
        exact Position.not_lt.mpr hle
      rw [mergeFrom, if_neg hapart]
      split
      next heq =>
        obtain rfl : x = last := by
          rw [eq_caret hlast, eq_caret hx, range_caret, range_caret] at heq
          rw [eq_caret hlast, eq_caret hx]
          exact congrArg (fun r => caret r.start) heq
        rw [ih h.of_cons hrest]
        simp
      next => rw [List.mem_cons, ih h.of_cons hrest, List.mem_cons (a := s) (b := last)]

/-! ## Normalized selections -/

theorem normalize_ne_nil (h : selections ≠ []) : normalize selections ≠ [] := by
  rw [normalize]
  cases hsorted : selections.mergeSort precedes with
  | nil => exact absurd (hsorted ▸ List.mergeSort_perm selections precedes).nil_eq.symm h
  | cons last rest => exact mergeFrom_ne_nil last rest

theorem isOrdered_normalize (selections : List Selection) : IsOrdered (normalize selections) := by
  have hsorted := pairwise_mergeSort selections
  rw [normalize]
  cases hcases : selections.mergeSort precedes with
  | nil => exact .nil
  | cons last rest => exact isOrdered_mergeFrom (hcases ▸ hsorted)

theorem mergeFrom_of_isOrdered (h : IsOrdered (last :: rest)) :
    mergeFrom last rest = last :: rest := by
  induction rest generalizing last with
  | nil => rfl
  | cons s rest ih =>
      obtain ⟨hlast, hrest⟩ := List.pairwise_cons.mp h
      obtain ⟨hstart, hne⟩ := hlast s List.mem_cons_self
      rw [mergeFrom, if_neg (Position.not_lt.mpr hstart), if_neg hne.symm, ih hrest]

/-- Selections in order are normalized already. -/
theorem normalize_of_isOrdered (h : IsOrdered selections) : normalize selections = selections := by
  have hsorted : selections.mergeSort precedes = selections := by
    apply List.mergeSort_of_pairwise
    apply h.imp
    rintro a b ⟨hle, -⟩
    have ha := a.range.start_le_stop
    have hb := b.range.start_le_stop
    simp only [precedes_iff, Position.ext_iff', Position.lt_def, Position.le_def] at *
    omega
  rw [normalize, hsorted]
  cases selections with
  | nil => rfl
  | cons last rest => exact mergeFrom_of_isOrdered h

theorem allEnds_normalize (h : AllEnds P selections) : AllEnds P (normalize selections) := by
  have hsorted : AllEnds P (selections.mergeSort precedes) :=
    fun s hs => h s (List.mem_mergeSort.mp hs)
  rw [normalize]
  cases hcases : selections.mergeSort precedes with
  | nil => exact fun s hs => absurd hs List.not_mem_nil
  | cons last rest =>
      obtain ⟨hlast, hrest⟩ := List.forall_mem_cons.mp (hcases ▸ hsorted)
      exact allEnds_mergeFrom hlast hrest

/-- Normalizing keeps every caret where no other selections are. -/
theorem mem_normalize_of_isEmpty (hempty : ∀ x ∈ selections, x.isEmpty) :
    s ∈ normalize selections ↔ s ∈ selections := by
  have hsorted := pairwise_mergeSort selections
  have hmem (x : Selection) : x ∈ selections.mergeSort precedes ↔ x ∈ selections :=
    List.mem_mergeSort
  have hempty : ∀ x ∈ selections.mergeSort precedes, x.isEmpty :=
    fun x hx => hempty x ((hmem x).mp hx)
  rw [← hmem, normalize]
  cases hcases : selections.mergeSort precedes with
  | nil => rfl
  | cons last rest => exact mem_mergeFrom_of_isEmpty (hcases ▸ hsorted) (hcases ▸ hempty)

end Selection

end MarkupPairs
