import Mathlib.Logic.ExistsUnique
import MarkupPairs.Proofs.RangeCover

/-!
# The union of what was inserted

A set holds the least ranges that are apart and contain every range inserted into it. Neither the
order in which the ranges came nor whether they came one by one or as a list leaves a trace.
-/

namespace MarkupPairs

namespace Range

theorem contains_refl (r : Range) : r.contains r :=
  contains_iff.mpr ⟨Position.le_refl _, Position.le_refl _⟩

theorem contains_trans {a b c : Range} (hab : a.contains b) (hbc : b.contains c) :
    a.contains c := by
  obtain ⟨hstart, hstop⟩ := contains_iff.mp hab
  obtain ⟨hstart', hstop'⟩ := contains_iff.mp hbc
  exact contains_iff.mpr ⟨Position.le_trans hstart hstart', Position.le_trans hstop' hstop⟩

theorem contains_antisymm {a b : Range} (hab : a.contains b) (hba : b.contains a) : a = b := by
  obtain ⟨hstart, hstop⟩ := contains_iff.mp hab
  obtain ⟨hstart', hstop'⟩ := contains_iff.mp hba
  exact ext_iff'.mpr ⟨Position.le_antisymm hstart hstart', Position.le_antisymm hstop' hstop⟩

theorem contains_union {a b e : Range} : e.contains (a.union b) ↔ e.contains a ∧ e.contains b := by
  rw [contains_iff, contains_iff, contains_iff]
  change e.start ≤ min a.start b.start ∧ max a.stop b.stop ≤ e.stop ↔ _
  rw [Position.le_min_iff, Position.max_le_iff]
  exact and_and_and_comm

theorem union_contains_left (a b : Range) : (a.union b).contains a :=
  (contains_union.mp (contains_refl (a.union b))).1

theorem union_contains_right (a b : Range) : (a.union b).contains b :=
  (contains_union.mp (contains_refl (a.union b))).2

theorem intersects_iff {a b : Range} : a.intersects b ↔ a.start ≤ b.stop ∧ b.start ≤ a.stop := by
  simp [intersects]

/-- Ranges that each contain one of two ranges that meet do meet. -/
theorem intersects_of_contains {a b r t : Range} (hr : a.contains r) (ht : b.contains t)
    (hmeet : r.intersects t) : a.intersects b := by
  obtain ⟨hstart, hstop⟩ := contains_iff.mp hr
  obtain ⟨hstart', hstop'⟩ := contains_iff.mp ht
  obtain ⟨hrt, htr⟩ := intersects_iff.mp hmeet
  exact intersects_iff.mpr
    ⟨Position.le_trans hstart (Position.le_trans hrt hstop'),
      Position.le_trans hstart' (Position.le_trans htr hstop)⟩

theorem intersects_self (r : Range) : r.intersects r :=
  intersects_iff.mpr ⟨r.start_le_stop, r.start_le_stop⟩

end Range

namespace RangeSet

/-- Whether a range lies within one of the ranges of the set. -/
def Includes (s : RangeSet) (r : Range) : Prop := ∃ e ∈ s.ranges, e.contains r

/-! ## An insertion step by step -/

/-- A range that meets none of the set comes to stand in front of the first that starts behind
it. -/
theorem insertSorted_of_apart {r : Range} {ranges : List Range}
    (hranges : ranges.Pairwise fun a b => a.stop < b.start) (h : ∀ e ∈ ranges, ¬e.intersects r) :
    insertSorted r ranges =
      ranges.takeWhile (·.start < r.start) ++ r :: ranges.dropWhile (·.start < r.start) := by
  induction ranges with
  | nil => rfl
  | cons e later ih =>
      obtain ⟨he, hlater⟩ := List.forall_mem_cons.mp h
      have hmiss : ¬(e.start ≤ r.stop ∧ r.start ≤ e.stop) := mt Range.intersects_iff.mpr he
      have hle := e.start_le_stop
      have hle' := r.start_le_stop
      by_cases hbefore : e.stop < r.start
      · have hstart : e.start < r.start := Position.lt_of_le_of_lt hle hbefore
        rw [insertSorted, if_pos hbefore, ih hranges.of_cons hlater, List.takeWhile_cons_of_pos
          (by simpa using hstart), List.dropWhile_cons_of_pos (by simpa using hstart)]
        rfl
      · have hstart : ¬e.start < r.start := by
          simp only [Position.le_def, Position.lt_def] at *
          omega
        rw [insertSorted, if_neg hbefore, absorb, if_neg he, List.takeWhile_cons_of_neg
          (by simpa using hstart), List.dropWhile_cons_of_neg (by simpa using hstart)]
        rfl

/-- A range merges with the first range it meets, and from there on with those that the merged
range meets. -/
theorem insertSorted_of_intersects {r e : Range} {front later : List Range}
    (hranges : (front ++ e :: later).Pairwise fun a b => a.stop < b.start)
    (hfront : ∀ x ∈ front, ¬x.intersects r) (he : e.intersects r) :
    insertSorted r (front ++ e :: later) = front ++ absorb (e.union r) later := by
  obtain ⟨-, hreach⟩ := Range.intersects_iff.mp he
  induction front with
  | nil =>
      rw [List.nil_append, insertSorted, if_neg (Position.not_lt.mpr hreach), absorb, if_pos he]
      rfl
  | cons x front ih =>
      obtain ⟨hx, hrest⟩ := List.forall_mem_cons.mp hfront
      have hmiss : ¬(x.start ≤ r.stop ∧ r.start ≤ x.stop) := mt Range.intersects_iff.mpr hx
      -- the range it misses ends before one it reaches, so it is the range that comes too early
      have hbefore : x.stop < r.start := by
        have hlt : x.stop < e.start := (List.pairwise_cons.mp hranges).1 e (by simp)
        have hle := x.start_le_stop
        obtain ⟨hmeet, -⟩ := Range.intersects_iff.mp he
        simp only [Position.le_def, Position.lt_def] at *
        omega
      rw [List.cons_append, insertSorted, if_pos hbefore, ih hranges.of_cons hrest]
      rfl

/-! ## What lies within the set -/

theorem exists_contains_absorb (r : Range) (later : List Range) :
    ∀ x ∈ r :: later, ∃ e ∈ absorb r later, e.contains x := by
  induction later generalizing r with
  | nil => exact fun x hx => ⟨x, hx, x.contains_refl⟩
  | cons next later ih =>
      unfold absorb
      split
      · have hunion := ih (next.union r)
        obtain ⟨e, he, hcontains⟩ := hunion _ List.mem_cons_self
        intro x hx
        rcases List.mem_cons.mp hx with rfl | hx
        · exact ⟨e, he, Range.contains_trans hcontains (Range.union_contains_right _ _)⟩
        · rcases List.mem_cons.mp hx with rfl | hx
          · exact ⟨e, he, Range.contains_trans hcontains (Range.union_contains_left _ _)⟩
          · exact hunion x (List.mem_cons_of_mem _ hx)
      · exact fun x hx => ⟨x, hx, x.contains_refl⟩

theorem exists_contains_insertSorted (r : Range) (ranges : List Range) :
    ∀ x ∈ r :: ranges, ∃ e ∈ insertSorted r ranges, e.contains x := by
  induction ranges with
  | nil => exact fun x hx => ⟨x, hx, x.contains_refl⟩
  | cons first later ih =>
      unfold insertSorted
      split
      · have hin : ∀ x ∈ r :: later, ∃ e ∈ first :: insertSorted r later, e.contains x := by
          intro x hx
          obtain ⟨e, he, hcontains⟩ := ih x hx
          exact ⟨e, List.mem_cons_of_mem _ he, hcontains⟩
        intro x hx
        rcases List.mem_cons.mp hx with rfl | hx
        · exact hin x List.mem_cons_self
        · rcases List.mem_cons.mp hx with rfl | hx
          · exact ⟨x, List.mem_cons_self, x.contains_refl⟩
          · exact hin x (List.mem_cons_of_mem _ hx)
      · exact exists_contains_absorb r (first :: later)

variable {s t : RangeSet} {rs : List Range}

theorem Includes.insert {x : Range} (h : s.Includes x) (r : Range) : (s.insert r).Includes x := by
  obtain ⟨e, he, hcontains⟩ := h
  obtain ⟨e', he', hcontains'⟩ :=
    exists_contains_insertSorted r s.ranges e (List.mem_cons_of_mem r he)
  exact ⟨e', he', Range.contains_trans hcontains' hcontains⟩

theorem Includes.insertAll {x : Range} (h : s.Includes x) (rs : List Range) :
    (s.insertAll rs).Includes x := by
  induction rs generalizing s with
  | nil => exact h
  | cons r rs ih => exact ih (h.insert r)

theorem includes_insertAll {r : Range} (hr : r ∈ rs) : (s.insertAll rs).Includes r := by
  induction rs generalizing s with
  | nil => cases hr
  | cons first rest ih =>
      rcases List.mem_cons.mp hr with rfl | hr
      · have hinsert : (s.insert r).Includes r :=
          exists_contains_insertSorted r s.ranges r List.mem_cons_self
        exact hinsert.insertAll rest
      · exact ih hr

/-- Ranges of the set that meet stand at one place. -/
theorem eq_of_intersects {i j : Nat} (hi : i < s.ranges.length) (hj : j < s.ranges.length)
    (h : s.ranges[i].intersects s.ranges[j]) : i = j := by
  obtain ⟨hij, hji⟩ := Range.intersects_iff.mp h
  have hapart := List.pairwise_iff_getElem.mp s.apart
  rcases Nat.lt_trichotomy i j with hlt | heq | hlt
  · exact absurd (hapart i j hi hj hlt) (Position.not_lt.mpr hji)
  · exact heq
  · exact absurd (hapart j i hj hi hlt) (Position.not_lt.mpr hij)

theorem eq_of_mem_of_intersects {a b : Range} (ha : a ∈ s.ranges) (hb : b ∈ s.ranges)
    (h : a.intersects b) : a = b := by
  obtain ⟨i, hi, rfl⟩ := List.getElem_of_mem ha
  obtain ⟨j, hj, rfl⟩ := List.getElem_of_mem hb
  obtain rfl := eq_of_intersects hi hj h
  rfl

/-- What lies within a set goes on lying within it when ranges that meet are merged. -/
theorem isMerging_includes : IsMerging t.Includes := by
  rintro a b hmeet ⟨e, he, ha⟩ ⟨e', he', hb⟩
  obtain rfl := eq_of_mem_of_intersects he he' (Range.intersects_of_contains ha hb hmeet)
  exact ⟨e, he, Range.contains_union.mpr ⟨ha, hb⟩⟩

/-- The set is the least one: a set that has every inserted range within it has the whole set
within it. -/
theorem includes_of_mem_ofList (h : ∀ r ∈ rs, t.Includes r) :
    ∀ e ∈ (ofList rs).ranges, t.Includes e :=
  forall_mem_insertAll isMerging_includes h (by simp [empty])

theorem nodup_ranges (s : RangeSet) : s.ranges.Nodup := by
  apply s.apart.imp
  rintro a _ hlt rfl
  exact Position.not_lt.mpr a.start_le_stop hlt

/-- Sets that lie within one another are the same. -/
theorem eq_of_includes (hst : ∀ e ∈ s.ranges, t.Includes e) (hts : ∀ e ∈ t.ranges, s.Includes e) :
    s = t := by
  have hsubset {s t : RangeSet} (hst : ∀ e ∈ s.ranges, t.Includes e)
      (hts : ∀ e ∈ t.ranges, s.Includes e) : ∀ e ∈ s.ranges, e ∈ t.ranges := by
    intro e he
    obtain ⟨e', he', hcontains⟩ := hst e he
    obtain ⟨e'', he'', hcontains'⟩ := hts e' he'
    obtain rfl := eq_of_mem_of_intersects he he'' (Range.intersects_of_contains e.contains_refl
      (Range.contains_trans hcontains' hcontains) e.intersects_self)
    rwa [Range.contains_antisymm hcontains' hcontains]
  have hperm : s.ranges.Perm t.ranges :=
    (List.perm_ext_iff_of_nodup s.nodup_ranges t.nodup_ranges).mpr fun e =>
      ⟨hsubset hst hts e, hsubset hts hst e⟩
  have heq : s.ranges = t.ranges := by
    refine hperm.eq_of_pairwise (fun a b _ _ hab hba => ?_) s.apart t.apart
    have ha := a.start_le_stop
    have hb := b.start_le_stop
    simp only [Position.le_def, Position.lt_def] at *
    omega
  cases s
  cases t
  congr

/-- The order in which ranges are inserted leaves no trace. -/
theorem ofList_perm {rs' : List Range} (h : rs.Perm rs') : ofList rs = ofList rs' :=
  eq_of_includes
    (includes_of_mem_ofList fun _ hr => includes_insertAll (h.mem_iff.mp hr))
    (includes_of_mem_ofList fun _ hr => includes_insertAll (h.mem_iff.mpr hr))

/-- A set collects ranges: it starts out empty or from a list of them, and takes up further ranges
one by one or as a list. -/
inductive Collects : RangeSet → List Range → Prop
  | empty : Collects empty []
  | ofList (rs : List Range) : Collects (ofList rs) rs
  | insert {s : RangeSet} {rs : List Range} (hs : Collects s rs) (r : Range) :
      Collects (s.insert r) (rs ++ [r])
  | insertAll {s : RangeSet} {rs : List Range} (hs : Collects s rs) (more : List Range) :
      Collects (s.insertAll more) (rs ++ more)

theorem insertAll_append (s : RangeSet) (rs more : List Range) :
    s.insertAll (rs ++ more) = (s.insertAll rs).insertAll more := List.foldl_append

/-- Ranges taken up in several goes make the set that they make as one list. -/
theorem Collects.eq_ofList (h : Collects s rs) : s = RangeSet.ofList rs := by
  induction h with
  | empty => rfl
  | ofList rs => rfl
  | insert hs r ih =>
      rw [ih]
      exact (insertAll_append RangeSet.empty _ [r]).symm
  | insertAll hs more ih =>
      rw [ih]
      exact (insertAll_append RangeSet.empty _ more).symm

/-- A set is the union of the ranges it has collected. Its ranges are strictly apart and in order,
cover what the collected ranges cover, and start and stop where collected ranges do; each collected
range lies within exactly one of them; and any order of the same ranges gives the same set. -/
theorem Collects.isUnion (h : Collects s rs) :
    (∀ i (hi : i + 1 < s.ranges.length), s.ranges[i].stop < s.ranges[i + 1].start) ∧
      (∀ p, s.covers p ↔ ∃ r ∈ rs, r.covers p) ∧
      (∀ r ∈ rs, ∃! i : Fin s.ranges.length, s.ranges[i].contains r) ∧
      (∀ e ∈ s.ranges, (∃ r ∈ rs, r.start = e.start) ∧ ∃ r ∈ rs, r.stop = e.stop) ∧
      ∀ s' rs', rs'.Perm rs → Collects s' rs' → s' = s := by
  refine ⟨fun i hi => ?_, fun p => ?_, fun r hr => ?_, ?_, fun s' rs' hperm h' => ?_⟩
  · exact List.pairwise_iff_getElem.mp s.apart i (i + 1) (by omega) hi (by omega)
  · rw [h.eq_ofList, covers_ofList, List.any_eq_true]
  · obtain ⟨e, he, hcontains⟩ : s.Includes r := h.eq_ofList ▸ includes_insertAll hr
    obtain ⟨i, hi, rfl⟩ := List.getElem_of_mem he
    refine ⟨⟨i, hi⟩, hcontains, fun j hj => Fin.ext ?_⟩
    exact eq_of_intersects j.isLt hi
      (Range.intersects_of_contains hj hcontains r.intersects_self)
  · have hmerging : IsMerging fun e =>
        (∃ r ∈ rs, r.start = e.start) ∧ ∃ r ∈ rs, r.stop = e.stop := fun _ _ _ ha hb =>
      ⟨Range.start_union_of (P := fun p => ∃ r ∈ rs, r.start = p) ha.1 hb.1,
        Range.stop_union_of (P := fun p => ∃ r ∈ rs, r.stop = p) ha.2 hb.2⟩
    rw [h.eq_ofList]
    exact forall_mem_insertAll hmerging (fun r hr => ⟨⟨r, hr, rfl⟩, r, hr, rfl⟩)
      (List.forall_mem_nil _)
  · rw [h.eq_ofList, h'.eq_ofList, ofList_perm hperm]

/-- Two ranges apart, then one that bridges them over a line break, then an empty range behind
all. -/
theorem Collects.isUnion_bridged :
    let far : Range := ⟨⟨2, 0⟩, ⟨3, 4⟩, by decide⟩
    let near : Range := ⟨⟨0, 1⟩, ⟨0, 2⟩, by decide⟩
    let bridge : Range := ⟨⟨0, 2⟩, ⟨2, 1⟩, by decide⟩
    let point : Range := Range.empty ⟨4, 0⟩
    let s := ((RangeSet.ofList [far, near]).insert bridge).insertAll [point]
    Collects s [far, near, bridge, point] ∧
      s.ranges = [⟨⟨0, 1⟩, ⟨3, 4⟩, by decide⟩, point] ∧
      (∃! i : Fin s.ranges.length, (s.ranges.get i).contains bridge) ∧
      RangeSet.ofList [point, bridge, near, far] = s := by
  intro far near bridge point s
  have hs : Collects s [far, near, bridge, point] :=
    ((Collects.ofList [far, near]).insert bridge).insertAll [point]
  obtain ⟨-, -, hunique, -, hany⟩ := Collects.isUnion hs
  exact ⟨hs, by decide, hunique bridge (by simp), hany _ _ (List.reverse_perm _) (.ofList _)⟩

end RangeSet

end MarkupPairs
