import Reflow.Number.Binary64

/-!
# Numbers as decimals

A floating point number is written with the fewest digits that read back as the number, and of the
decimals with that many digits the one nearest to it.

* `Binary64.shortest`  those digits, and the power of ten of the last one;
* `Binary64.text`      the number as text: positional for powers of ten from `-4` to `15`, else with
                       an exponent of at least two digits and its sign;
* `Binary64.fixed`     the number with a fixed count of places, a tie going to the even digit;
* `Binary64.ofText?`   reads what `text` writes.
-/

namespace Reflow

/-- the digits of a number, most significant first -/
def decimalDigits (n : Nat) : List Char := Nat.toDigits 10 n

/-- the number that a list of decimal digits stands for -/
def ofDecimalDigits (cs : List Char) : Nat :=
  cs.foldl (fun n c => 10 * n + (c.toNat - '0'.toNat)) 0

namespace Binary64

/-- the power of ten of the first digit of a positive rational -/
def leadingPower (a : Rat) : Int :=
  if 1 ≤ a then ((decimalDigits a.floor.toNat).length : Int) - 1
  else -((decimalDigits ((1 / a).ceil - 1).toNat).length : Int)

/-- the decimal with `count` digits that is nearest to the positive number `x` among the two
neighbours of `x` that read back as `x` -/
def nearestDecimal (x : Binary64) (count : Nat) : Option (Nat × Int) :=
  let power := leadingPower x.value - (count - 1)
  let scaled := x.value / (10 : Rat) ^ power
  let below := scaled.floor
  let readsBack (digits : Int) : Bool := ofRat (digits * (10 : Rat) ^ power) = x
  let chosen :=
    if readsBack below then
      if readsBack (below + 1) then some (roundEven scaled) else some below
    else if readsBack (below + 1) then some (below + 1) else none
  chosen.map fun digits => (digits.toNat, power)

/-- the shortest decimal `digits * 10 ^ power` that reads back as the positive number `x`: with
seventeen digits there always is one -/
def shortest (x : Binary64) : Nat × Int :=
  ((List.range 17).findSome? fun i => x.nearestDecimal (i + 1)).getD (0, 0)

/-- digits without the zeros at their end, and the power of ten of the first digit -/
def scientific (digits : Nat) (power : Int) : List Char × Int :=
  let cs := decimalDigits digits
  let kept := (cs.reverse.dropWhile (· == '0')).reverse
  (kept, power + cs.length - 1)

/-- an exponent: its sign, and at least two digits -/
def exponentText (e : Int) : List Char :=
  let digits := decimalDigits e.natAbs
  (if e < 0 then '-' else '+') :: (List.replicate (2 - digits.length) '0' ++ digits)

/-- the text of a positive number from its digits and the power of ten of the first one -/
def placed (cs : List Char) (leading : Int) (pointZero : Bool) : List Char :=
  if leading < -4 ∨ 16 ≤ leading then
    cs.take 1 ++ (if cs.length ≤ 1 then [] else '.' :: cs.drop 1) ++ 'e' :: exponentText leading
  else if leading < 0 then
    '0' :: '.' :: (List.replicate (-leading - 1).toNat '0' ++ cs)
  else
    let whole := leading.toNat + 1
    if cs.length ≤ whole then
      cs ++ List.replicate (whole - cs.length) '0' ++ (if pointZero then ['.', '0'] else [])
    else cs.take whole ++ '.' :: cs.drop whole

/-- a number as text; with `pointZero` a whole number in positional form ends in `.0` -/
def text (x : Binary64) (pointZero : Bool) : String :=
  String.ofList <| match x with
    | .nan => ['n', 'a', 'n']
    | .infinity negative => (if negative then ['-'] else []) ++ ['i', 'n', 'f']
    | .finite negative significand exponent =>
      (if negative then ['-'] else []) ++
        if significand = 0 then placed ['0'] 0 pointZero
        else
          let (digits, power) := (Binary64.finite false significand exponent).shortest
          let (cs, leading) := scientific digits power
          placed cs leading pointZero

/-- a number with `places` digits after the point -/
def fixed (x : Binary64) (places : Nat) : String :=
  String.ofList <| match x with
    | .nan => ['n', 'a', 'n']
    | .infinity negative => (if negative then ['-'] else []) ++ ['i', 'n', 'f']
    | .finite negative significand exponent =>
      let magnitude := (Binary64.finite false significand exponent).value
      let digits := decimalDigits (roundEven (magnitude * 10 ^ places)).toNat
      let padded := List.replicate (places + 1 - digits.length) '0' ++ digits
      let whole := padded.length - places
      (if negative then ['-'] else []) ++ padded.take whole ++
        (if places = 0 then [] else '.' :: padded.drop whole)

/-- the number that an unsigned decimal such as `12.5e-3` stands for -/
def ofUnsigned? (negative : Bool) (cs : List Char) : Option Binary64 :=
  let whole := cs.takeWhile Char.isDigit
  let rest := cs.dropWhile Char.isDigit
  let (places, rest) := match rest with
    | '.' :: rest => (rest.takeWhile Char.isDigit, rest.dropWhile Char.isDigit)
    | rest => ([], rest)
  let power? : Option Int := match rest with
    | [] => some 0
    | 'e' :: '-' :: ds => if ds ≠ [] ∧ ds.all Char.isDigit then some (-ofDecimalDigits ds) else none
    | 'e' :: '+' :: ds | 'e' :: ds =>
      if ds ≠ [] ∧ ds.all Char.isDigit then some (ofDecimalDigits ds) else none
    | _ => none
  if whole = [] ∧ places = [] then none
  else power?.map fun power =>
    ofDecimal negative (ofDecimalDigits (whole ++ places)) (power - places.length)

/-- the number that a text stands for -/
def ofText? (s : String) : Option Binary64 :=
  match s.toList with
  | ['n', 'a', 'n'] => some .nan
  | ['i', 'n', 'f'] => some (.infinity false)
  | ['-', 'i', 'n', 'f'] => some (.infinity true)
  | '-' :: cs => ofUnsigned? true cs
  | cs => ofUnsigned? false cs

end Binary64

end Reflow
