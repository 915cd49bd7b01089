/-!
# Tables of code points

A table lists closed ranges of code points in ascending order, so a search can stop at the first
range that starts too late.
-/

namespace MarkupPairs.Unicode

/-- Closed ranges of code points, ascending and apart. -/
abbrev Ranges := List (Nat × Nat)

def Ranges.contains : Ranges → Nat → Bool
  | [], _ => false
  | (first, last) :: rest, code =>
    if code < first then false else code ≤ last || Ranges.contains rest code

end MarkupPairs.Unicode
