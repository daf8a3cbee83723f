/-!
# Classes of characters as ranges

A class of characters is given by the ranges of its numbers, ends included.

* `inRanges`: membership.
-/

namespace LpFormat

/-- Whether the number of a character lies in one of some ranges. -/
def inRanges (ranges : List (Nat × Nat)) (c : Char) : Bool :=
  ranges.any fun (lo, hi) => decide (lo ≤ c.toNat) && decide (c.toNat ≤ hi)

end LpFormat
