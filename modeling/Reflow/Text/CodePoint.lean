/-!
# Sets of code points

A set of characters is written down as the closed intervals of its code points, in increasing order.
-/

namespace Reflow.Text

/-- whether a number lies in one of some closed intervals, which stand in increasing order -/
def inRanges (n : Nat) : List (Nat × Nat) → Bool
  | [] => false
  | (first, last) :: ranges => if n ≤ last then first ≤ n else inRanges n ranges

/-- whether intervals stand in increasing order, none of them next to another -/
def areApart : List (Nat × Nat) → Bool
  | [] => true
  | (first, last) :: ranges =>
    first ≤ last && ranges.head?.all (last + 1 < ·.1) && areApart ranges

end Reflow.Text
