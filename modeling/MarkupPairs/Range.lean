import MarkupPairs.Position

/-!
# Ranges

A range runs between two positions, its start never after its stop. It covers the characters from
its start up to, but not including, its stop; containment and intersection are closed at both ends,
so ranges that touch meet in an empty range.
-/

namespace MarkupPairs

structure Range where
  start : Position
  stop : Position
  start_le_stop : start ≤ stop

namespace Range

theorem ext_iff' {a b : Range} : a = b ↔ a.start = b.start ∧ a.stop = b.stop := by
  cases a; cases b; simp

instance : DecidableEq Range := fun _ _ => decidable_of_iff _ ext_iff'.symm

/-- The range between two positions given in any order. -/
def between (a b : Position) : Range :=
  if h : a ≤ b then ⟨a, b, h⟩ else ⟨b, a, Position.le_of_lt (Position.not_le.mp h)⟩

def empty (p : Position) : Range := ⟨p, p, Position.le_refl p⟩

def isEmpty (r : Range) : Bool := r.start == r.stop

def isSingleLine (r : Range) : Bool := r.start.line == r.stop.line

/-- Whether a position lies in the range, both ends included. -/
def containsPosition (r : Range) (p : Position) : Bool := r.start ≤ p && p ≤ r.stop

def contains (r other : Range) : Bool := r.start ≤ other.start && other.stop ≤ r.stop

/-- What two ranges share; `none` when they are apart. -/
def intersection (a b : Range) : Option Range :=
  let start := max a.start b.start
  let stop := min a.stop b.stop
  if h : start ≤ stop then some ⟨start, stop, h⟩ else none

/-- Whether two ranges share at least a position. -/
def intersects (a b : Range) : Bool := a.start ≤ b.stop && b.start ≤ a.stop

def union (a b : Range) : Range where
  start := min a.start b.start
  stop := max a.stop b.stop
  start_le_stop := Position.le_trans (Position.min_le_left _ _)
    (Position.le_trans a.start_le_stop (Position.le_max_left _ _))

/-- The range from the start of `r` to another position, in order. -/
def withStop (r : Range) (stop : Position) : Range := between r.start stop

end Range

end MarkupPairs
