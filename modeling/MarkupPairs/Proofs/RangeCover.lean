import MarkupPairs.RangeSet

/-!
# What a set of ranges covers

A range covers the positions from its start up to, but not including, its stop. Merging ranges that
meet changes nothing in what they cover together, so a set covers what the ranges inserted into it
cover, whatever their order.
-/

namespace MarkupPairs

/-- Whether a position lies in the range, its stop left out. -/
def Range.covers (r : Range) (p : Position) : Bool := r.start ≤ p && p < r.stop

/-- Whether one of the ranges of the set covers a position. -/
def RangeSet.covers (s : RangeSet) (p : Position) : Bool := s.ranges.any (·.covers p)

namespace Position

theorem min_le_iff {a b p : Position} : min a b ≤ p ↔ a ≤ p ∨ b ≤ p := by
  change (if a ≤ b then a else b) ≤ p ↔ _
  simp only [le_def]
  split <;> omega

theorem lt_max_iff {a b p : Position} : p < max a b ↔ p < a ∨ p < b := by
  change p < (if a ≤ b then b else a) ↔ _
  simp only [le_def, lt_def]
  split <;> omega

theorem le_min_iff {a b p : Position} : p ≤ min a b ↔ p ≤ a ∧ p ≤ b := by
  change p ≤ (if a ≤ b then a else b) ↔ _
  simp only [le_def]
  split <;> omega

theorem max_le_iff {a b p : Position} : max a b ≤ p ↔ a ≤ p ∧ b ≤ p := by
  change (if a ≤ b then b else a) ≤ p ↔ _
  simp only [le_def]
  split <;> omega

theorem min_eq_or (a b : Position) : min a b = a ∨ min a b = b := by
  change (if a ≤ b then a else b) = a ∨ (if a ≤ b then a else b) = b
  split
  · exact .inl rfl
  · exact .inr rfl

theorem max_eq_or (a b : Position) : max a b = a ∨ max a b = b := by
  change (if a ≤ b then b else a) = a ∨ (if a ≤ b then b else a) = b
  split
  · exact .inr rfl
  · exact .inl rfl

end Position

namespace Range

theorem covers_iff {r : Range} {p : Position} : r.covers p ↔ r.start ≤ p ∧ p < r.stop := by
  simp [covers]

theorem contains_iff {r other : Range} :
    r.contains other ↔ r.start ≤ other.start ∧ other.stop ≤ r.stop := by
  simp [contains]

/-- A range covers what the ranges within it cover. -/
theorem covers_of_contains {r other : Range} {p : Position} (h : r.contains other)
    (hp : other.covers p) : r.covers p := by
  obtain ⟨hstart, hstop⟩ := contains_iff.mp h
  obtain ⟨hle, hlt⟩ := covers_iff.mp hp
  exact covers_iff.mpr ⟨Position.le_trans hstart hle, Position.lt_of_lt_of_le hlt hstop⟩

theorem covers_of_lt_start {r : Range} {p : Position} (h : p < r.start) : r.covers p = false := by
  apply Bool.eq_false_iff.mpr
  intro hcovers
  exact Position.not_lt.mpr (covers_iff.mp hcovers).1 h

theorem covers_of_stop_le {r : Range} {p : Position} (h : r.stop ≤ p) : r.covers p = false := by
  apply Bool.eq_false_iff.mpr
  intro hcovers
  exact Position.not_lt.mpr h (covers_iff.mp hcovers).2

theorem isEmpty_iff {r : Range} : r.isEmpty ↔ r.start = r.stop := beq_iff_eq

theorem isEmpty_of_stop_le {r : Range} (h : r.stop ≤ r.start) : r.isEmpty :=
  isEmpty_iff.mpr (Position.le_antisymm r.start_le_stop h)

theorem start_lt_stop {r : Range} (h : ¬r.isEmpty) : r.start < r.stop :=
  Position.not_le.mp fun hle => h (isEmpty_of_stop_le hle)

theorem covers_of_isEmpty {r : Range} (h : r.isEmpty) (p : Position) : r.covers p = false := by
  by_cases hlt : p < r.start
  · exact covers_of_lt_start hlt
  · exact covers_of_stop_le (isEmpty_iff.mp h ▸ Position.not_lt.mp hlt)

/-- Ranges that meet cover together what their union covers. -/
theorem covers_union {a b : Range} (h : a.intersects b) (p : Position) :
    (a.union b).covers p = (a.covers p || b.covers p) := by
  obtain ⟨hab, hba⟩ : a.start ≤ b.stop ∧ b.start ≤ a.stop := by simpa [intersects] using h
  rw [Bool.eq_iff_iff, Bool.or_eq_true, covers_iff, covers_iff, covers_iff]
  change min a.start b.start ≤ p ∧ p < max a.stop b.stop ↔ _
  rw [Position.min_le_iff, Position.lt_max_iff]
  simp only [Position.le_def, Position.lt_def] at *
  omega

/-- The ends of the range between two positions are the positions. -/
theorem ends_between {P : Position → Prop} {a b : Position} (ha : P a) (hb : P b) :
    P (between a b).start ∧ P (between a b).stop := by
  rw [between]
  split
  next => exact ⟨ha, hb⟩
  next => exact ⟨hb, ha⟩

theorem line_le_line (r : Range) : r.start.line ≤ r.stop.line := by
  have hle := r.start_le_stop
  rw [Position.le_def] at hle
  omega

/-- A union starts where one of the two ranges starts. -/
theorem start_union_of {P : Position → Prop} {a b : Range} (ha : P a.start) (hb : P b.start) :
    P (a.union b).start := by
  change P (min a.start b.start)
  rcases Position.min_eq_or a.start b.start with heq | heq <;> rw [heq]
  · exact ha
  · exact hb

/-- A union stops where one of the two ranges stops. -/
theorem stop_union_of {P : Position → Prop} {a b : Range} (ha : P a.stop) (hb : P b.stop) :
    P (a.union b).stop := by
  change P (max a.stop b.stop)
  rcases Position.max_eq_or a.stop b.stop with heq | heq <;> rw [heq]
  · exact ha
  · exact hb

/-- The ends of a union are ends of the two ranges. -/
theorem ends_union {P : Position → Prop} {a b : Range} (ha : P a.start ∧ P a.stop)
    (hb : P b.start ∧ P b.stop) : P (a.union b).start ∧ P (a.union b).stop :=
  ⟨start_union_of ha.1 hb.1, stop_union_of ha.2 hb.2⟩

end Range

namespace RangeSet

theorem covers_absorb (r : Range) (later : List Range) (p : Position) :
    (absorb r later).any (·.covers p) = (r.covers p || later.any (·.covers p)) := by
  induction later generalizing r with
  | nil => rfl
  | cons e later ih =>
      unfold absorb
      split
      next hmeet =>
        rw [ih, Range.covers_union hmeet, List.any_cons, Bool.or_comm (e.covers p), Bool.or_assoc]
      next => rw [List.any_cons]

theorem covers_insertSorted (r : Range) (ranges : List Range) (p : Position) :
    (insertSorted r ranges).any (·.covers p) = (r.covers p || ranges.any (·.covers p)) := by
  induction ranges with
  | nil => rfl
  | cons e later ih =>
      unfold insertSorted
      split
      · rw [List.any_cons, ih, List.any_cons, Bool.or_left_comm]
      · exact covers_absorb r (e :: later) p

/-- Inserting a range adds what it covers. -/
theorem covers_insert (s : RangeSet) (r : Range) (p : Position) :
    (s.insert r).covers p = (r.covers p || s.covers p) := covers_insertSorted r s.ranges p

theorem covers_insertAll (s : RangeSet) (rs : List Range) (p : Position) :
    (s.insertAll rs).covers p = (rs.any (·.covers p) || s.covers p) := by
  induction rs generalizing s with
  | nil => rfl
  | cons r rs ih =>
      rw [insertAll, List.foldl_cons, ← insertAll, ih, covers_insert, List.any_cons,
        Bool.or_left_comm, Bool.or_assoc]

theorem covers_ofList (rs : List Range) (p : Position) :
    (ofList rs).covers p = rs.any (·.covers p) := by
  rw [ofList, covers_insertAll]
  exact Bool.or_false _

/-! ## What merging keeps -/

/-- Whether a property of ranges passes on to the union of two that meet. -/
def IsMerging (P : Range → Prop) : Prop := ∀ a b, a.intersects b → P a → P b → P (a.union b)

section

variable {P : Range → Prop} {r : Range}

theorem forall_mem_absorb {later : List Range} (hP : IsMerging P) (hr : P r)
    (hlater : ∀ e ∈ later, P e) : ∀ e ∈ absorb r later, P e := by
  induction later generalizing r with
  | nil => exact List.forall_mem_cons.mpr ⟨hr, hlater⟩
  | cons e later ih =>
      obtain ⟨he, hrest⟩ := List.forall_mem_cons.mp hlater
      unfold absorb
      split
      next hmeet => exact ih (hP e r hmeet he hr) hrest
      next => exact List.forall_mem_cons.mpr ⟨hr, hlater⟩

theorem forall_mem_insertSorted {ranges : List Range} (hP : IsMerging P) (hr : P r)
    (hranges : ∀ e ∈ ranges, P e) : ∀ e ∈ insertSorted r ranges, P e := by
  induction ranges with
  | nil => exact List.forall_mem_cons.mpr ⟨hr, hranges⟩
  | cons e later ih =>
      obtain ⟨he, hlater⟩ := List.forall_mem_cons.mp hranges
      unfold insertSorted
      split
      · exact List.forall_mem_cons.mpr ⟨he, ih hlater⟩
      · exact forall_mem_absorb hP hr hranges

/-- A property that merging keeps holds of a whole set when it holds of what is inserted. -/
theorem forall_mem_insertAll {s : RangeSet} {rs : List Range} (hP : IsMerging P)
    (hrs : ∀ r ∈ rs, P r) (hs : ∀ e ∈ s.ranges, P e) : ∀ e ∈ (s.insertAll rs).ranges, P e := by
  induction rs generalizing s with
  | nil => exact hs
  | cons r rs ih =>
      obtain ⟨hr, hrest⟩ := List.forall_mem_cons.mp hrs
      exact ih hrest (forall_mem_insertSorted hP hr hs)

end

/-- Whether both ends of every range of a list have a property. -/
def AllEnds (P : Position → Prop) (rs : List Range) : Prop := ∀ r ∈ rs, P r.start ∧ P r.stop

variable {P : Position → Prop}

theorem allEnds_cons {r : Range} {rs : List Range} :
    AllEnds P (r :: rs) ↔ (P r.start ∧ P r.stop) ∧ AllEnds P rs := List.forall_mem_cons

/-- The ends of merged ranges are ends that were there before. -/
theorem isMerging_ends : IsMerging fun r => P r.start ∧ P r.stop :=
  fun _ _ _ ha hb => Range.ends_union ha hb

theorem allEnds_insert {s : RangeSet} {r : Range} (hr : P r.start ∧ P r.stop)
    (hs : AllEnds P s.ranges) : AllEnds P (s.insert r).ranges :=
  forall_mem_insertSorted isMerging_ends hr hs

theorem allEnds_insertAll {s : RangeSet} {rs : List Range} (hrs : AllEnds P rs)
    (hs : AllEnds P s.ranges) : AllEnds P (s.insertAll rs).ranges :=
  forall_mem_insertAll isMerging_ends hrs hs

end RangeSet

end MarkupPairs
