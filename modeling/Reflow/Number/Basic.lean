import Reflow.Number.Shortest

/-!
# Numeric constants

Integers of any size, floating point numbers and complex numbers, and how they are written in source
text.  `Number.text?` refuses an integer of more than `maxIntegerDigits` digits.
-/

namespace Reflow

/-- the value of a numeric constant -/
inductive Number where
  | int (n : Int)
  | float (x : Binary64)
  | complex (re im : Binary64)
  deriving DecidableEq, Inhabited, Repr

namespace Number

/-- the longest integer that is written in decimal -/
def maxIntegerDigits : Nat := 4300

/-- a complex number: its imaginary part alone if the real part is a positive zero -/
def complexText (re im : Binary64) : String :=
  let imText := im.text false ++ "j"
  if re = .zero false then imText
  else "(" ++ re.text false ++ (if im.isNegative then "" else "+") ++ imText ++ ")"

/-- the number as source text, unless it is an integer with too many digits -/
def text? : Number → Option String
  | .int n => if n.natAbs < Nat.pow 10 maxIntegerDigits then some (toString n) else none
  | .float x => some (x.text true)
  | .complex re im => some (complexText re im)

end Number

end Reflow
