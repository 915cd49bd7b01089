import MarkupPairs.Proofs.RangeUnion
import MarkupPairs.Proofs.SelectionOrder

/-!
# What normalizing selections keeps

Merged selections cover what the given ones cover, and each of the given ones lies within one of
them. One that is clear of all the others is kept as it is, its direction included. Sorting leaves
the order of selections with the same range open, but such selections are equal carets or are
merged, so what comes out does not depend on the order of what goes in.
-/

namespace MarkupPairs

namespace Range

variable {a b : Range}

/-- Whether a range is empty and strictly inside another one. -/
def IsEmptyInside (a b : Range) : Prop := a.isEmpty ∧ b.start < a.start ∧ a.stop < b.stop

/-- Whether two ranges have no character in common and neither is empty and strictly inside the
other one. -/
structure IsClear (a b : Range) : Prop where
  disjoint : ∀ p, ¬(a.covers p ∧ b.covers p)
  left : ¬a.IsEmptyInside b
  right : ¬b.IsEmptyInside a

theorem IsClear.symm (h : a.IsClear b) : b.IsClear a :=
  ⟨fun p hp => h.disjoint p hp.symm, h.right, h.left⟩

theorem isClear_of_stop_le (h : a.stop ≤ b.start) : a.IsClear b where
  disjoint _ hp := Position.not_lt.mpr (Position.le_trans h (covers_iff.mp hp.2).1)
    (covers_iff.mp hp.1).2
  left hinside := Position.not_lt.mpr (Position.le_trans a.start_le_stop h) hinside.2.1
  right hinside := Position.not_lt.mpr (Position.le_trans h b.start_le_stop) hinside.2.2

theorem IsClear.stop_le (h : a.IsClear b) (hlt : a.start < b.start) : a.stop ≤ b.start := by
  apply Position.not_lt.mp
  intro hinside
  by_cases hempty : b.isEmpty
  · refine h.right ⟨hempty, hlt, ?_⟩
    rwa [← isEmpty_iff.mp hempty]
  · exact h.disjoint b.start ⟨covers_iff.mpr ⟨Position.le_of_lt hlt, hinside⟩,
      covers_iff.mpr ⟨b.start.le_refl, start_lt_stop hempty⟩⟩

/-- Ranges are clear of each other when one of them stops before the other one starts. -/
theorem isClear_iff : a.IsClear b ↔ a.stop ≤ b.start ∨ b.stop ≤ a.start := by
  constructor
  · intro h
    by_cases hab : a.start < b.start
    · exact .inl (h.stop_le hab)
    by_cases hba : b.start < a.start
    · exact .inr (h.symm.stop_le hba)
    -- they start at one place, which both cover unless one of them is empty
    have heq : a.start = b.start :=
      Position.le_antisymm (Position.not_lt.mp hba) (Position.not_lt.mp hab)
    by_cases hempty : a.isEmpty
    · exact .inl (Position.le_of_eq ((isEmpty_iff.mp hempty).symm.trans heq))
    · right
      apply Position.not_lt.mp
      intro hlt
      exact h.disjoint a.start ⟨covers_iff.mpr ⟨a.start.le_refl, start_lt_stop hempty⟩,
        covers_iff.mpr ⟨Position.le_of_eq heq.symm, hlt⟩⟩
  · rintro (h | h)
    · exact isClear_of_stop_le h
    · exact (isClear_of_stop_le h).symm

instance (a b : Range) : Decidable (a.IsClear b) := decidable_of_iff' _ isClear_iff

end Range

namespace Selection

variable {before after rest rest' selections : List Selection} {last s x : Selection}
  {p : Position}

theorem isEmpty_of_range (h : s.range.isEmpty) : s.isEmpty := by
  obtain ⟨anchor, active⟩ := s
  rw [range, Range.isEmpty_iff, Range.between] at h
  rw [isEmpty, beq_iff_eq]
  split at h
  next => exact h
  next => exact h.symm

/-- An empty selection is known by its range. -/
theorem eq_of_range_eq (h : s.range = x.range) (hempty : s.range.isEmpty) : s = x := by
  have hs := eq_caret (isEmpty_of_range hempty)
  have hx := eq_caret (isEmpty_of_range (h ▸ hempty))
  rw [hs, hx, range_caret, range_caret] at h
  rw [hs, hx]
  exact congrArg (fun r => caret r.start) h

/-! ## Selections that are kept -/

/-- Of two selections that are clear of each other, the one that is sorted first stops before the
other one starts. -/
theorem stop_le_of_precedes (h : s.precedes x) (hclear : s.range.IsClear x.range) :
    s.range.stop ≤ x.range.start := by
  have hx := x.range.start_le_stop
  rw [Range.isClear_iff] at hclear
  rw [precedes_iff] at h
  simp only [Position.ext_iff', Position.le_def, Position.lt_def] at *
  omega

theorem mem_mergeFrom_self (h : ∀ x ∈ rest, s.range.stop ≤ x.range.start) :
    s ∈ mergeFrom s rest := by
  induction rest with
  | nil => exact List.mem_singleton_self s
  | cons x rest ih =>
      obtain ⟨hx, hrest⟩ := List.forall_mem_cons.mp h
      rw [mergeFrom, if_neg (Position.not_lt.mpr hx)]
      split
      next => exact ih hrest
      next => exact List.mem_cons_self

/-- Merging keeps a selection that starts behind everything in front of it and stops in front of
everything behind it. -/
theorem mem_mergeFrom_of_between (hbefore : ∀ x ∈ last :: before, x.range.stop ≤ s.range.start)
    (hafter : ∀ x ∈ after, s.range.stop ≤ x.range.start) :
    s ∈ mergeFrom last (before ++ s :: after) := by
  induction before generalizing last with
  | nil =>
      have hlast : last.range.stop ≤ s.range.start := hbefore last List.mem_cons_self
      rw [List.nil_append, mergeFrom, if_neg (Position.not_lt.mpr hlast)]
      split
      next heq =>
        -- `last` stops where it starts, so it is a caret, and `s` is the same one
        have hempty : s.range.isEmpty := by
          rw [← heq] at hlast
          exact Range.isEmpty_of_stop_le hlast
        rw [← eq_of_range_eq heq hempty]
        exact mem_mergeFrom_self hafter
      next => exact List.mem_cons_of_mem _ (mem_mergeFrom_self hafter)
  | cons x before ih =>
      obtain ⟨hlast, hbehind⟩ := List.forall_mem_cons.mp hbefore
      obtain ⟨hx, hrest⟩ := List.forall_mem_cons.mp hbehind
      rw [List.cons_append, mergeFrom]
      split
      next =>
        apply ih
        refine List.forall_mem_cons.mpr ⟨?_, hrest⟩
        rw [range_ends]
        exact Position.max_le_iff.mpr ⟨hlast, hx⟩
      next =>
        split
        next => exact ih (List.forall_mem_cons.mpr ⟨hlast, hrest⟩)
        next => exact List.mem_cons_of_mem _ (ih hbehind)

theorem mem_merge_of_isClear (hsorted : (before ++ s :: after).Pairwise fun a b => a.precedes b)
    (hclear : ∀ x ∈ before ++ after, s.range.IsClear x.range) :
    s ∈ merge (before ++ s :: after) := by
  obtain ⟨-, hbehind, hfront⟩ := List.pairwise_append.mp hsorted
  have hafter : ∀ x ∈ after, s.range.stop ≤ x.range.start := fun x hx =>
    stop_le_of_precedes ((List.pairwise_cons.mp hbehind).1 x hx)
      (hclear x (List.mem_append_right _ hx))
  have hbefore : ∀ x ∈ before, x.range.stop ≤ s.range.start := fun x hx =>
    stop_le_of_precedes (hfront x hx s List.mem_cons_self)
      (hclear x (List.mem_append_left _ hx)).symm
  cases before with
  | nil => exact mem_mergeFrom_self hafter
  | cons last before => exact mem_mergeFrom_of_between hbefore hafter

/-! ## What merged selections cover -/

/-- Each selection lies within one of those that it is merged into. -/
theorem exists_contains_mergeFrom (last : Selection) (rest : List Selection) :
    ∀ x ∈ last :: rest, ∃ t ∈ mergeFrom last rest, t.range.contains x.range := by
  fun_induction mergeFrom last rest with
  | case1 last =>
      rw [List.forall_mem_singleton]
      exact ⟨last, List.mem_cons_self, last.range.contains_refl⟩
  | case2 last s rest hlt cover ih =>
      obtain ⟨⟨t, ht, hcontains⟩, hrest⟩ := List.forall_mem_cons.mp ih
      rw [range_ends] at hcontains
      have hlast := Range.contains_trans hcontains (Range.union_contains_left _ _)
      have hs := Range.contains_trans hcontains (Range.union_contains_right _ _)
      rw [List.forall_mem_cons, List.forall_mem_cons]
      exact ⟨⟨t, ht, hlast⟩, ⟨t, ht, hs⟩, hrest⟩
  | case3 last s rest hle heq ih =>
      obtain ⟨hlast, hrest⟩ := List.forall_mem_cons.mp ih
      rw [List.forall_mem_cons, List.forall_mem_cons, heq]
      exact ⟨hlast, hlast, hrest⟩
  | case4 last s rest hle hne ih =>
      refine List.forall_mem_cons.mpr ⟨⟨last, List.mem_cons_self, last.range.contains_refl⟩, ?_⟩
      intro x hx
      obtain ⟨t, ht, hcontains⟩ := ih x hx
      exact ⟨t, List.mem_cons_of_mem _ ht, hcontains⟩

/-- What merged selections cover, one of those that went in covers. -/
theorem exists_covers_of_mem_mergeFrom
    (hsorted : (last :: rest).Pairwise fun a b => a.range.start ≤ b.range.start)
    (h : s ∈ mergeFrom last rest) (hp : s.range.covers p) :
    ∃ x ∈ last :: rest, x.range.covers p := by
  fun_induction mergeFrom last rest with
  | case1 last => exact ⟨s, h, hp⟩
  | case2 last x rest hlt cover ih =>
      obtain ⟨hlast, hrest⟩ := List.pairwise_cons.mp hsorted
      obtain ⟨hx, hlater⟩ := List.forall_mem_cons.mp hlast
      have hstart : cover.start = last.range.start := Range.start_union hx
      obtain ⟨y, hy, hcovers⟩ :=
        ih (List.pairwise_cons.mpr ⟨by rwa [range_ends, hstart], hrest.of_cons⟩) h
      rcases List.mem_cons.mp hy with rfl | hy
      · have hmeet : last.range.intersects x.range := Range.intersects_iff.mpr
          ⟨Position.le_trans hx x.range.start_le_stop, Position.le_of_lt hlt⟩
        rw [range_ends, Range.covers_union hmeet, Bool.or_eq_true] at hcovers
        rcases hcovers with hcovers | hcovers
        · exact ⟨last, List.mem_cons_self, hcovers⟩
        · exact ⟨x, List.mem_cons_of_mem _ List.mem_cons_self, hcovers⟩
      · exact ⟨y, List.mem_cons_of_mem _ (List.mem_cons_of_mem _ hy), hcovers⟩
  | case3 last x rest hle heq ih =>
      have hsublist : (last :: rest).Sublist (last :: x :: rest) :=
        .cons_cons _ (List.sublist_cons_self _ _)
      obtain ⟨y, hy, hcovers⟩ := ih (hsorted.sublist hsublist) h
      exact ⟨y, hsublist.subset hy, hcovers⟩
  | case4 last x rest hle hne ih =>
      rcases List.mem_cons.mp h with rfl | h
      · exact ⟨s, List.mem_cons_self, hp⟩
      · obtain ⟨y, hy, hcovers⟩ := ih hsorted.of_cons h
        exact ⟨y, List.mem_cons_of_mem _ hy, hcovers⟩

/-! ## The order of selections with the same range -/

theorem range_eq_of_precedes (h : s.precedes x) (h' : x.precedes s) : s.range = x.range := by
  rw [precedes_iff] at h h'
  simp only [Range.ext_iff', Position.ext_iff', Position.le_def, Position.lt_def] at *
  omega

/-- Two selections with the same range may be given in either order: both are merged into one, or
they are the same caret. -/
theorem mergeFrom_comm (h : s.range = x.range) (rest : List Selection) :
    mergeFrom s (x :: rest) = mergeFrom x (s :: rest) := by
  by_cases hlt : x.range.start < s.range.stop
  · rw [h] at hlt
    simp only [mergeFrom, h, if_pos hlt]
  · have hempty : s.range.isEmpty := by
      rw [← h] at hlt
      exact Range.isEmpty_of_stop_le (Position.not_lt.mp hlt)
    rw [eq_of_range_eq h hempty]

theorem mergeFrom_swap (h : s.range = x.range) (last : Selection) (rest : List Selection) :
    mergeFrom last (s :: x :: rest) = mergeFrom last (x :: s :: rest) := by
  by_cases hlt : x.range.start < last.range.stop
  · have hcover : x.range.start < (last.range.union x.range).stop :=
      Position.lt_of_lt_of_le hlt (Range.stop_le_union _ _)
    simp only [mergeFrom, range_ends, h, if_pos hlt, if_pos hcover]
  · by_cases heq : x.range = last.range
    · simp only [mergeFrom, h, if_neg hlt, if_pos heq]
    · rw [mergeFrom, h, if_neg hlt, if_neg heq, mergeFrom_comm h]
      conv_rhs => rw [mergeFrom, if_neg hlt, if_neg heq]

theorem mergeFrom_congr (h : ∀ last, mergeFrom last rest = mergeFrom last rest')
    (last x : Selection) : mergeFrom last (x :: rest) = mergeFrom last (x :: rest') := by
  rw [mergeFrom, mergeFrom, h, h, h]

theorem mergeFrom_middle (h : ∀ x ∈ before, x.range = s.range) (last : Selection) :
    mergeFrom last (before ++ s :: after) = mergeFrom last (s :: (before ++ after)) := by
  induction before generalizing last with
  | nil => rfl
  | cons x before ih =>
      obtain ⟨hx, hbefore⟩ := List.forall_mem_cons.mp h
      exact (mergeFrom_congr (ih hbefore) last x).trans (mergeFrom_swap hx last _)

theorem merge_middle (h : ∀ x ∈ before, x.range = s.range) :
    merge (before ++ s :: after) = merge (s :: (before ++ after)) := by
  cases before with
  | nil => rfl
  | cons x before =>
      obtain ⟨hx, hbefore⟩ := List.forall_mem_cons.mp h
      exact (mergeFrom_middle hbefore x).trans (mergeFrom_comm hx _)

/-- In two sorted orders of the same selections, only ones with its own range come in front of what
comes first in the other order. -/
theorem exists_middle (hsorted : (s :: rest).Pairwise fun a b => a.precedes b)
    (hsorted' : rest'.Pairwise fun a b => a.precedes b) (h : (s :: rest).Perm rest') :
    ∃ before after, rest' = before ++ s :: after ∧ rest.Perm (before ++ after) ∧
      ((before ++ after).Pairwise fun a b => a.precedes b) ∧ ∀ x ∈ before, x.range = s.range := by
  obtain ⟨before, after, rfl⟩ := List.append_of_mem (h.subset List.mem_cons_self)
  have hrest : rest.Perm (before ++ after) := (h.trans List.perm_middle).cons_inv
  have hsublist : (before ++ after).Sublist (before ++ s :: after) :=
    (List.sublist_cons_self s after).append_left before
  refine ⟨before, after, rfl, hrest, hsorted'.sublist hsublist, ?_⟩
  intro x hx
  have hfirst : x.precedes s :=
    (List.pairwise_append.mp hsorted').2.2 x hx s List.mem_cons_self
  have hlater : s.precedes x :=
    (List.pairwise_cons.mp hsorted).1 x (hrest.symm.subset (List.mem_append_left _ hx))
  exact range_eq_of_precedes hfirst hlater

theorem mergeFrom_perm (hsorted : rest.Pairwise fun a b => a.precedes b)
    (hsorted' : rest'.Pairwise fun a b => a.precedes b) (h : rest.Perm rest')
    (last : Selection) : mergeFrom last rest = mergeFrom last rest' := by
  induction rest generalizing rest' last with
  | nil => rw [h.nil_eq]
  | cons s rest ih =>
      obtain ⟨before, after, rfl, hrest, hothers, htied⟩ := exists_middle hsorted hsorted' h
      rw [mergeFrom_middle htied]
      exact mergeFrom_congr (ih hsorted.of_cons hothers hrest) last s

/-- Sorted orders of the same selections are merged into the same ones. -/
theorem merge_perm (hsorted : rest.Pairwise fun a b => a.precedes b)
    (hsorted' : rest'.Pairwise fun a b => a.precedes b) (h : rest.Perm rest') :
    merge rest = merge rest' := by
  cases rest with
  | nil => rw [h.nil_eq]
  | cons s rest =>
      obtain ⟨before, after, rfl, hrest, hothers, htied⟩ := exists_middle hsorted hsorted' h
      rw [merge_middle htied]
      exact mergeFrom_perm hsorted.of_cons hothers hrest s

/-! ## Normalized selections -/

theorem exists_contains_normalize (h : s ∈ selections) :
    ∃ t ∈ normalize selections, t.range.contains s.range := by
  have hmem : s ∈ selections.mergeSort precedes := List.mem_mergeSort.mpr h
  rw [normalize]
  cases hcases : selections.mergeSort precedes with
  | nil => exact absurd (hcases ▸ hmem) List.not_mem_nil
  | cons last rest => exact exists_contains_mergeFrom last rest s (hcases ▸ hmem)

/-- Normalized selections cover what those cover that they come from. -/
theorem exists_covers_normalize_iff :
    (∃ t ∈ normalize selections, t.range.covers p) ↔ ∃ s ∈ selections, s.range.covers p := by
  constructor
  · rintro ⟨t, ht, hp⟩
    have hsorted := pairwise_mergeSort selections
    rw [normalize] at ht
    cases hcases : selections.mergeSort precedes with
    | nil =>
        rw [hcases] at ht
        cases ht
    | cons last rest =>
        rw [hcases] at ht hsorted
        obtain ⟨s, hs, hcovers⟩ := exists_covers_of_mem_mergeFrom hsorted ht hp
        exact ⟨s, List.mem_mergeSort.mp (hcases ▸ hs), hcovers⟩
  · rintro ⟨s, hs, hp⟩
    obtain ⟨t, ht, hcontains⟩ := exists_contains_normalize hs
    exact ⟨t, ht, Range.covers_of_contains hcontains hp⟩

/-- A selection that is clear of all the others is kept as it is. -/
theorem mem_normalize_of_isClear (h : ∀ x ∈ before ++ after, s.range.IsClear x.range) :
    s ∈ normalize (before ++ s :: after) := by
  have hsorted := sorted_mergeSort (before ++ s :: after)
  have hperm := List.mergeSort_perm (before ++ s :: after) precedes
  obtain ⟨front, behind, hsplit⟩ :=
    List.append_of_mem (hperm.symm.subset (List.mem_append_right before List.mem_cons_self))
  rw [hsplit] at hsorted hperm
  rw [normalize, hsplit]
  have hothers : (front ++ behind).Perm (before ++ after) :=
    (List.perm_middle.symm.trans (hperm.trans List.perm_middle)).cons_inv
  exact mem_merge_of_isClear hsorted fun x hx => h x (hothers.subset hx)

/-- It does not matter which arrangement in reading order is merged. -/
theorem normalize_of_perm (h : selections.Perm rest)
    (hsorted : rest.Pairwise fun a b => a.precedes b) : normalize selections = merge rest :=
  merge_perm (sorted_mergeSort selections) hsorted
    ((List.mergeSort_perm selections precedes).trans h)

theorem normalize_perm (h : rest.Perm rest') : normalize rest = normalize rest' :=
  normalize_of_perm (h.trans (List.mergeSort_perm rest' precedes).symm) (sorted_mergeSort rest')

/-- Normalizing merges selections into the ones they stand for: in order and apart, covering what
the given ones cover and each of these as a whole, keeping the ones that are clear of all others,
and the same for every order in which they are given. Normalizing once more changes nothing. -/
theorem normalize_merges (selections : List Selection) :
    IsOrdered (normalize selections) ∧
    (∀ p, (∃ t ∈ normalize selections, t.range.covers p) ↔ ∃ s ∈ selections, s.range.covers p) ∧
    (∀ s ∈ selections, ∃ t ∈ normalize selections, t.range.contains s.range) ∧
    (∀ before s after, selections = before ++ s :: after →
      (∀ x ∈ before ++ after, s.range.IsClear x.range) → s ∈ normalize selections) ∧
    normalize (normalize selections) = normalize selections ∧
    ∀ others, others.Perm selections → normalize others = normalize selections := by
  have hordered := isOrdered_normalize selections
  refine ⟨hordered, fun p => exists_covers_normalize_iff, fun s => exists_contains_normalize, ?_,
    normalize_of_isOrdered hordered, fun others => normalize_perm⟩
  rintro before s after rfl
  exact mem_normalize_of_isClear

/-- The selection that runs backward and the caret at its border are kept; the two others are
merged, in whatever order they are given. -/
theorem normalize_merges_backward :
    let backward : Selection := ⟨⟨0, 9⟩, ⟨0, 6⟩⟩
    let selections := [backward, ⟨⟨0, 2⟩, ⟨0, 4⟩⟩, .caret ⟨0, 6⟩, ⟨⟨0, 5⟩, ⟨0, 0⟩⟩]
    backward ∈ normalize selections ∧ .caret ⟨0, 6⟩ ∈ normalize selections ∧
      normalize selections.reverse = normalize selections := by
  intro backward selections
  obtain ⟨-, -, -, hkeeps, -, hperm⟩ := normalize_merges selections
  refine ⟨hkeeps [] backward _ rfl (by decide), ?_, hperm _ (List.reverse_perm selections)⟩
  exact hkeeps [backward, ⟨⟨0, 2⟩, ⟨0, 4⟩⟩] _ [⟨⟨0, 5⟩, ⟨0, 0⟩⟩] rfl (by decide)

end Selection

end MarkupPairs
