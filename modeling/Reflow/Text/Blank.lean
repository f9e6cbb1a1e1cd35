import Reflow.Text.CodePoint

/-!
# Blanks and line boundaries

The characters that separate words, and those at which a text that is shown falls into lines.  A
line feed and a carriage return are both, and a carriage return with a line feed after it is one
boundary.
-/

namespace Reflow.Text

/-- the code points of blanks -/
def blankRanges : List (Nat × Nat) :=
  [(0x9, 0xd), (0x1c, 0x20), (0x85, 0x85), (0xa0, 0xa0), (0x1680, 0x1680), (0x2000, 0x200a),
   (0x2028, 0x2029), (0x202f, 0x202f), (0x205f, 0x205f), (0x3000, 0x3000)]

/-- whether a character separates words -/
def isBlank (c : Char) : Bool := inRanges c.toNat blankRanges

/-- whether a line ends after a character -/
def isBoundary (c : Char) : Bool :=
  [0xa, 0xb, 0xc, 0xd, 0x1c, 0x1d, 0x1e, 0x85, 0x2028, 0x2029].contains c.toNat

/-- a text without the blanks at both ends -/
def trim (cs : List Char) : List Char :=
  ((cs.dropWhile isBlank).reverse.dropWhile isBlank).reverse

/-- the lines of a text, each with the characters that end it -/
def boundedLines : List Char → List (List Char)
  | [] => []
  | '\r' :: '\n' :: cs => ['\r', '\n'] :: boundedLines cs
  | c :: cs =>
    if isBoundary c then [c] :: boundedLines cs
    else match boundedLines cs with
      | [] => [[c]]
      | l :: ls => (c :: l) :: ls

/-- the words of a text, each with the blanks after it; blanks at the start are a word of their own
-/
def words : List Char → List (List Char)
  | [] => []
  | c :: cs =>
    match words cs with
    | [] => [[c]]
    | w :: ws =>
      if isBlank c && !w.head?.any isBlank then [c] :: w :: ws else (c :: w) :: ws

end Reflow.Text
