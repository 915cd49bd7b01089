import MarkupPairs.Range

/-!
# Sets of ranges

A range set lists its ranges in reading order, each strictly apart from the next. A range that is
inserted merges with every range it meets, those it only touches included.
-/

namespace MarkupPairs

/-- Ranges in reading order, no two of which meet. -/
structure RangeSet where
  ranges : List Range
  apart : ranges.Pairwise fun a b => a.stop < b.start

namespace RangeSet

def empty : RangeSet := ⟨[], .nil⟩

/-- Puts `r` in front of `later`, merged with the ranges there that it meets one after the other. -/
def absorb (r : Range) : List Range → List Range
  | [] => [r]
  | e :: later => if e.intersects r then absorb (e.union r) later else r :: e :: later

/-- Inserts `r` in its place, merged with the ranges it meets. -/
def insertSorted (r : Range) : List Range → List Range
  | [] => [r]
  | e :: later =>
    if e.stop < r.start then e :: insertSorted r later else absorb r (e :: later)

/-- Nothing in front of all the ranges comes to stand behind one when they merge. -/
theorem lt_start_absorb {p : Position} {r : Range} {later : List Range} (hr : p < r.start)
    (hlater : ∀ e ∈ later, p < e.start) : ∀ e ∈ absorb r later, p < e.start := by
  induction later generalizing r with
  | nil => simpa [absorb] using hr
  | cons e later ih =>
    unfold absorb
    split
    · exact ih (Position.lt_min (hlater e (by simp)) hr) fun x hx => hlater x (by simp [hx])
    · simpa [hr] using hlater

theorem absorb_apart {r : Range} {later : List Range}
    (hlater : later.Pairwise fun a b => a.stop < b.start) (hr : ∀ e ∈ later, r.start ≤ e.stop) :
    (absorb r later).Pairwise fun a b => a.stop < b.start := by
  induction later generalizing r with
  | nil => simp [absorb]
  | cons e later ih =>
    obtain ⟨he, hrest⟩ := List.pairwise_cons.mp hlater
    unfold absorb
    split
    · exact ih hrest fun x hx =>
        Position.le_trans (Position.min_le_right _ _) (hr x (by simp [hx]))
    next hmeet =>
      have hapart : r.stop < e.start := by
        refine Position.not_le.mp fun hle => hmeet ?_
        simp [Range.intersects, hle, hr e (by simp)]
      refine List.pairwise_cons.mpr ⟨fun x hx => ?_, hlater⟩
      rcases List.mem_cons.mp hx with rfl | hx
      · exact hapart
      · exact Position.lt_of_lt_of_le hapart
          (Position.le_trans e.start_le_stop (Position.le_of_lt (he x hx)))

theorem lt_start_insertSorted {p : Position} {r : Range} {ranges : List Range} (hr : p < r.start)
    (hranges : ∀ e ∈ ranges, p < e.start) : ∀ e ∈ insertSorted r ranges, p < e.start := by
  induction ranges with
  | nil => simpa [insertSorted] using hr
  | cons e later ih =>
    unfold insertSorted
    split
    · intro x hx
      rcases List.mem_cons.mp hx with rfl | hx
      · exact hranges x (by simp)
      · exact ih (fun y hy => hranges y (by simp [hy])) x hx
    · exact lt_start_absorb hr hranges

theorem insertSorted_apart {r : Range} {ranges : List Range}
    (h : ranges.Pairwise fun a b => a.stop < b.start) :
    (insertSorted r ranges).Pairwise fun a b => a.stop < b.start := by
  induction ranges with
  | nil => simp [insertSorted]
  | cons e later ih =>
    obtain ⟨he, hlater⟩ := List.pairwise_cons.mp h
    unfold insertSorted
    split
    next hbefore =>
      exact List.pairwise_cons.mpr ⟨lt_start_insertSorted hbefore he, ih hlater⟩
    next hreach =>
      refine absorb_apart h fun x hx => ?_
      have hstop : r.start ≤ e.stop := Position.not_lt.mp hreach
      rcases List.mem_cons.mp hx with rfl | hx
      · exact hstop
      · exact Position.le_trans hstop
          (Position.le_trans (Position.le_of_lt (he x hx)) x.start_le_stop)

def insert (s : RangeSet) (r : Range) : RangeSet :=
  ⟨insertSorted r s.ranges, insertSorted_apart s.apart⟩

/-- The set with every range of a list inserted, in the list's order. -/
def insertAll (s : RangeSet) (rs : List Range) : RangeSet := rs.foldl insert s

def ofList (rs : List Range) : RangeSet := empty.insertAll rs

def size (s : RangeSet) : Nat := s.ranges.length

def isEmpty (s : RangeSet) : Bool := s.ranges.isEmpty

end RangeSet

end MarkupPairs
