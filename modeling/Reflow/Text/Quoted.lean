import Reflow.Text.Printable

/-!
# Quoted text

A text is shown between single quotes, or between double quotes if it holds a single quote and no
double quote.  The backslash and the quote in use are written with a backslash, line feed, carriage
return and tab as `\n`, `\r`, `\t`, and the other characters that are not printable by their code
point in lower-case hexadecimal digits: `\xNN`, `\uNNNN` or `\UNNNNNNNN`, whichever is the first
that can hold it.  Which characters are printable depends on the version of Unicode; if nothing else
is said, they are those of `Text.isPrintable`.
-/

namespace Reflow.Text

/-- the quote that a text is shown between -/
def quoteMark (cs : List Char) : Char :=
  if cs.contains '\x27' && !cs.contains '"' then '"' else '\x27'

/-- the last `width` hexadecimal digits of a number, in lower case -/
def hexDigits (width n : Nat) : List Char :=
  let digits := Nat.toDigits 16 n
  List.replicate (width - digits.length) '0' ++ digits

/-- a character as it is written between two quotes `mark` -/
def escaped (printable : Char → Bool) (mark c : Char) : List Char :=
  if c == mark || c == '\\' then ['\\', c]
  else if c == '\n' then ['\\', 'n']
  else if c == '\r' then ['\\', 'r']
  else if c == '\t' then ['\\', 't']
  else if printable c then [c]
  else if c.toNat < 0x100 then '\\' :: 'x' :: hexDigits 2 c.toNat
  else if c.toNat < 0x10000 then '\\' :: 'u' :: hexDigits 4 c.toNat
  else '\\' :: 'U' :: hexDigits 8 c.toNat

/-- the characters of a text shown in quotes -/
def quotedChars (cs : List Char) (printable : Char → Bool := isPrintable) : List Char :=
  quoteMark cs :: (cs.flatMap (escaped printable (quoteMark cs)) ++ [quoteMark cs])

/-- a text shown in quotes -/
def quoted (s : String) : String := String.ofList (quotedChars s.toList)

end Reflow.Text
