/-!
# Counts

Coordinates, offsets and the numbers in settings fit in 64 bits. A count that moves stops at zero
and at the largest count.
-/

namespace MarkupPairs

def maxCount : Nat := UInt64.size - 1

/-- A number as a count: zero when it is negative, the largest count when it is too large. -/
def clampCount (n : Int) : Nat := min n.toNat maxCount

end MarkupPairs
