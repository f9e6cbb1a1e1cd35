import Reflow.Source.Token

/-!
# Constants in source text

How numbers and texts are written.  Each reader works on the characters from a place on and says how
many of them belong to the constant.

* `Literal.number?`    a number: decimal, or in base two, eight or sixteen, with underscores;
* `Literal.closed`     the characters of a text up to the quotes that end it;
* `Literal.unescape`   what the characters of a text stand for;
* `Literal.quotation`  a text between quotes, with the letters before them.
-/

namespace Reflow.Source.Literal

/-! ### numbers -/

/-- the digits at the start of a text, in which single underscores may stand before a digit, and the
number of characters they take -/
def digits (isDigit : Char → Bool) : List Char → List Char × Nat
  | [] => ([], 0)
  | '_' :: c :: cs =>
    if isDigit c then
      let (ds, n) := digits isDigit cs
      (c :: ds, n + 2)
    else ([], 0)
  | c :: cs =>
    if isDigit c then
      let (ds, n) := digits isDigit cs
      (c :: ds, n + 1)
    else ([], 0)

/-- the value of a digit in any base up to sixteen -/
def digitValue (c : Char) : Nat :=
  if c.isDigit then c.toNat - '0'.toNat
  else if c.isLower then c.toNat - 'a'.toNat + 10
  else c.toNat - 'A'.toNat + 10

/-- the number with the given digits -/
def ofDigits (base : Nat) (ds : List Char) : Nat :=
  ds.foldl (fun n c => base * n + digitValue c) 0

def isHexDigit (c : Char) : Bool :=
  c.isDigit || ('a' ≤ c && c ≤ 'f') || ('A' ≤ c && c ≤ 'F')

def isOctalDigit (c : Char) : Bool := '0' ≤ c && c ≤ '7'

def isBinaryDigit (c : Char) : Bool := c == '0' || c == '1'

/-- an integer in the given base, after the two characters that announce the base -/
def based? (base : Nat) (isDigit : Char → Bool) (cs : List Char) : Option (Number × Nat) :=
  let (ds, n) := digits isDigit cs
  if ds.isEmpty then none else some (.int (ofDigits base ds), n + 2)

/-- decimal digits that do not start with an underscore -/
def decimals (cs : List Char) : List Char × Nat :=
  if cs.head?.any Char.isDigit then digits Char.isDigit cs else ([], 0)

/-- the fraction at the start of a text, if there is a point: its digits and its length -/
def fraction? : List Char → Option (List Char × Nat)
  | '.' :: cs =>
    let (ds, n) := decimals cs
    some (ds, n + 1)
  | _ => none

/-- the exponent at the start of a text, if there is one, and its length -/
def exponent? : List Char → Option (Int × Nat)
  | e :: cs =>
    if e == 'e' || e == 'E' then
      let (negative, cs, signs) := match cs with
        | '-' :: cs => (true, cs, 1)
        | '+' :: cs => (false, cs, 1)
        | cs => (false, cs, 0)
      let (ds, n) := decimals cs
      if ds.isEmpty then none
      else some ((if negative then -1 else 1) * (ofDigits 10 ds : Int), n + signs + 1)
    else none
  | [] => none

/-- a decimal number and its length; an integer may not start with a zero unless it is zero, and the
letter `j` makes a number imaginary -/
def decimal? (cs : List Char) : Option (Number × Nat) :=
  let (whole, n) := decimals cs
  let fraction? := fraction? (cs.drop n)
  let (places, n) := match fraction? with
    | some (ds, k) => (ds, n + k)
    | none => ([], n)
  let exponent? := exponent? (cs.drop n)
  let (power, n) := match exponent? with
    | some (e, k) => (e, n + k)
    | none => (0, n)
  let value := Binary64.ofDecimal false (ofDigits 10 (whole ++ places)) (power - places.length)
  if (cs.drop n).head?.any (fun c => c == 'j' || c == 'J') then
    some (.complex (.zero false) value, n + 1)
  else if fraction?.isSome || exponent?.isSome then some (.float value, n)
  else if whole.head? == some '0' && whole.any (· != '0') then none
  else some (.int (ofDigits 10 whole), n)

/-- the number at the start of a text, which starts with a digit or with a point and a digit -/
def number? : List Char → Option (Number × Nat)
  | '0' :: c :: cs =>
    if c == 'x' || c == 'X' then based? 16 isHexDigit cs
    else if c == 'o' || c == 'O' then based? 8 isOctalDigit cs
    else if c == 'b' || c == 'B' then based? 2 isBinaryDigit cs
    else decimal? ('0' :: c :: cs)
  | cs => decimal? cs

/-! ### texts -/

/-- how far a text constant reaches: the number of characters of its contents, or, if it does not
end, the number of line feeds before the place where that shows -/
inductive Extent where
  | ended (length : Nat)
  | open (lines : Nat)
  deriving DecidableEq, Repr

/-- one more character of contents -/
def Extent.past (lines : Nat) : Extent → Extent
  | .ended length => .ended (length + 1)
  | .open n => .open (n + lines)

/-- the number of lines that start after a character, which is followed by others -/
def feeds (c : Char) (cs : List Char) : Nat := if c == '\n' && !cs.isEmpty then 1 else 0

/-- the extent of the contents at the start of a text, up to the quotes that end them; the character
after a backslash never ends them, and without `triple` a line feed shows that they do not end -/
def extent (quote : Char) (triple : Bool) : List Char → Extent
  | [] => .open 0
  | '\\' :: c :: cs => ((extent quote triple cs).past (feeds c cs)).past 0
  | c :: cs =>
    if c == quote && (!triple || [quote, quote].isPrefixOf cs) then .ended 0
    else if c == '\n' && !triple then .open 0
    else (extent quote triple cs).past (feeds c cs)

/-- the character of a single letter after a backslash -/
def simpleEscape? : Char → Option Char
  | '\\' => some '\\'
  | '\x27' => some '\x27'
  | '"' => some '"'
  | 'a' => some '\x07'
  | 'b' => some '\x08'
  | 'f' => some '\x0c'
  | 'n' => some '\n'
  | 'r' => some '\r'
  | 't' => some '\t'
  | 'v' => some '\x0b'
  | _ => none

/-- the character with a code point of exactly `count` hexadecimal digits -/
def hexEscape? (count : Nat) (cs : List Char) : Option Char :=
  let ds := cs.take count
  if ds.length = count ∧ ds.all isHexDigit then some (Char.ofNat (ofDigits 16 ds)) else none

/-- what the characters after a backslash stand for, and how many of them; a backslash before any
other character stands for itself -/
def escape (cs : List Char) : List Char × Nat :=
  let sized (count : Nat) (rest : List Char) : List Char × Nat :=
    match hexEscape? count rest with
    | some c => ([c], count + 1)
    | none => (['\\'], 0)
  match cs with
  | [] => (['\\'], 0)
  | '\n' :: _ => ([], 1)
  | 'x' :: rest => sized 2 rest
  | 'u' :: rest => sized 4 rest
  | 'U' :: rest => sized 8 rest
  | c :: _ =>
    match simpleEscape? c with
    | some e => ([e], 1)
    | none =>
      let ds := (cs.take 3).takeWhile isOctalDigit
      if ds.isEmpty then (['\\'], 0) else ([Char.ofNat (ofDigits 8 ds)], ds.length)

/-- what the characters of a text stand for after the first `skip` of them -/
def unescapeAfter : Nat → List Char → List Char
  | _, [] => []
  | skip + 1, _ :: cs => unescapeAfter skip cs
  | 0, c :: cs =>
    if c == '\\' then
      let (out, n) := escape cs
      out ++ unescapeAfter n cs
    else c :: unescapeAfter 0 cs

/-- what the characters of a text stand for -/
def unescape (cs : List Char) : List Char := unescapeAfter 0 cs

/-- the letters that say how a text between quotes is to be read -/
structure Flags where
  unicode : Bool := false
  raw : Bool := false
  bytes : Bool := false
  formatted : Bool := false
  deriving DecidableEq, Repr

/-- the flags of the letters before a quote, if these letters can stand there.  Case does not matter,
except that only a small `u` leaves a note. -/
def flags? (letters : List Char) : Option Flags :=
  match letters.map Char.toLower with
  | [] => some {}
  | ['u'] => some { unicode := letters == ['u'] }
  | ['r'] => some { raw := true }
  | ['b'] => some { bytes := true }
  | ['f'] => some { formatted := true }
  | ['b', 'r'] | ['r', 'b'] => some { raw := true, bytes := true }
  | ['f', 'r'] | ['r', 'f'] => some { raw := true, formatted := true }
  | _ => none

/-- the token for a text with the given flags and contents -/
def lexeme (flags : Flags) (contents : List Char) : Lexeme :=
  if flags.bytes then .bytes
  else if flags.formatted then .formatted
  else .text (String.ofList (if flags.raw then contents else unescape contents)) flags.unicode

/-- a text between quotes -/
inductive Quotation where
  | ended (lexeme : Lexeme) (length : Nat)
  /-- it does not end, which shows `lines` lines further down -/
  | open (triple : Bool) (lines : Nat)

/-- the text between quotes at the start of a text, if one starts there -/
def quotation? (cs : List Char) : Option Quotation :=
  let letters := (cs.take 3).takeWhile Char.isAlpha
  match flags? letters, cs.drop letters.length with
  | some flags, quote :: rest =>
    if quote == '"' || quote == '\x27' then
      let triple := [quote, quote].isPrefixOf rest
      let width := if triple then 3 else 1
      let body := rest.drop (width - 1)
      some <| match extent quote triple body with
        | .ended n => .ended (lexeme flags (body.take n)) (letters.length + n + 2 * width)
        | .open lines => .open triple lines
    else none
  | _, _ => none

end Reflow.Source.Literal
