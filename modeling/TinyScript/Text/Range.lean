/-!
# Ranges of code points

A class of characters is given by the ranges of its code points, lowest first and apart from each
other. Looking a code point up stops at the first range that begins above it.
-/

namespace TinyScript.Text

/-- Whether `n` lies in one of the ranges, which stand in increasing order. -/
def inRanges : List (Nat × Nat) → Nat → Bool
  | [], _ => false
  | (low, high) :: rest, n => if n < low then false else n ≤ high || inRanges rest n

end TinyScript.Text
