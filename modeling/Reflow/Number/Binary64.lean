/-!
# Binary floating point

Double precision numbers as exact data: a sign, a significand below `2 ^ 53` and a power of two.
Every operation is exact rational arithmetic followed by one rounding to the nearest number, a tie
going to the even significand.

* `roundEven`           the integer nearest to a rational, ties to even;
* `Binary64.value`      the rational that a finite number stands for;
* `Binary64.ofRat`      the number nearest to a rational;
* `Binary64.ofDecimal`  the number nearest to a decimal;
* `Binary64.sub`, `.div`, `.mean`, `.lt`   arithmetic and order.
-/

namespace Reflow

/-- the integer nearest to `r`, the even one of two -/
def roundEven (r : Rat) : Int :=
  let below := r.floor
  let rest := r - below
  if rest < 1 / 2 then below
  else if 1 / 2 < rest then below + 1
  else if below % 2 = 0 then below else below + 1

/-- a double precision number: a finite one is `± significand * 2 ^ exponent` -/
inductive Binary64 where
  | nan
  | infinity (negative : Bool)
  | finite (negative : Bool) (significand : Nat) (exponent : Int)
  deriving DecidableEq, Inhabited, Repr

namespace Binary64

/-- the least exponent, that of zero and of the subnormal numbers -/
def minExponent : Int := -1074

/-- the exponent of the largest finite numbers -/
def maxExponent : Int := 971

def zero (negative : Bool) : Binary64 := .finite negative 0 minExponent

/-- the rational that a finite number stands for, and zero for the others -/
def value : Binary64 → Rat
  | .finite negative significand exponent =>
    (if negative then -1 else 1) * significand * (2 : Rat) ^ exponent
  | _ => 0

/-- the exponent for a positive rational: its quotient by that power of two is below `2 ^ 53`, and
at least `2 ^ 52` unless the exponent is the least one -/
def exponentOf (a : Rat) : Int :=
  let guess := max ((a.num.natAbs.log2 : Int) - a.den.log2 - 53) minExponent
  if a / (2 : Rat) ^ guess < (2 : Rat) ^ (53 : Int) then guess else guess + 1

/-- the number nearest to a positive rational, with the given sign -/
def ofPositive (negative : Bool) (a : Rat) : Binary64 :=
  let exponent := exponentOf a
  let significand := (roundEven (a / (2 : Rat) ^ exponent)).toNat
  let (significand, exponent) :=
    if significand = Nat.pow 2 53 then (Nat.pow 2 52, exponent + 1) else (significand, exponent)
  if maxExponent < exponent then .infinity negative else .finite negative significand exponent

/-- the number nearest to a rational -/
def ofRat (r : Rat) : Binary64 :=
  if r = 0 then zero false else if r < 0 then ofPositive true (-r) else ofPositive false r

/-- the number nearest to `± digits * 10 ^ exponent`; a decimal far outside the range of finite
numbers is not computed -/
def ofDecimal (negative : Bool) (digits : Nat) (exponent : Int) : Binary64 :=
  let size := ((Nat.toDigits 10 digits).length : Int) + exponent
  if digits = 0 ∨ size < -330 then zero negative
  else if 310 < size then .infinity negative
  else ofPositive negative (digits * (10 : Rat) ^ exponent)

def isNegative : Binary64 → Bool
  | .nan => false
  | .infinity negative | .finite negative _ _ => negative

def neg : Binary64 → Binary64
  | .nan => .nan
  | .infinity negative => .infinity !negative
  | .finite negative significand exponent => .finite (!negative) significand exponent

def isZero : Binary64 → Bool
  | .finite _ significand _ => significand == 0
  | _ => false

/-- the sum; two zeros of one sign keep it -/
def add : Binary64 → Binary64 → Binary64
  | .nan, _ | _, .nan => .nan
  | .infinity s, .infinity t => if s = t then .infinity s else .nan
  | .infinity s, _ | _, .infinity s => .infinity s
  | x, y =>
    if x.isZero ∧ y.isZero then zero (x.isNegative && y.isNegative) else ofRat (x.value + y.value)

def sub (x y : Binary64) : Binary64 := x.add y.neg

/-- the quotient by a number that is not zero -/
def div : Binary64 → Binary64 → Binary64
  | .nan, _ | _, .nan | .infinity _, .infinity _ => .nan
  | .infinity s, y => .infinity (s != y.isNegative)
  | x, .infinity s => zero (x.isNegative != s)
  | x, y =>
    if x.isZero then zero (x.isNegative != y.isNegative) else ofRat (x.value / y.value)

/-- whether one number is less than another; nothing is less or greater than `nan` -/
def lt : Binary64 → Binary64 → Bool
  | .nan, _ | _, .nan => false
  | .infinity s, .infinity t => s && !t
  | .infinity s, _ => s
  | _, .infinity t => !t
  | x, y => x.value < y.value

def isFinite : Binary64 → Bool
  | .finite .. => true
  | _ => false

/-- the mean, rounded once from the exact sum -/
def mean (xs : List Binary64) : Binary64 :=
  if xs.all isFinite then ofRat ((xs.map value).foldr (· + ·) 0 / xs.length)
  else (xs.foldl add (zero false)).div (ofRat xs.length)

end Binary64

end Reflow
