/-!
# Lines and bytes

A line ends with a line feed, a carriage return, or the two as a pair, which is kept as part of the
line.

* `Text.lineFeeds`   a text in which every line ends with a line feed alone;
* `Text.lines`       the lines of a text: together they are the text;
* `Text.byteLength`  the length of a text in UTF-8;
* `Text.lineStarts`  the byte offset of every line, and that of the end of the text.
-/

namespace Reflow.Text

/-- the lines of a text, each with the characters that end it -/
def lines : List Char → List (List Char)
  | [] => []
  | '\r' :: '\n' :: cs => ['\r', '\n'] :: lines cs
  | '\r' :: cs => ['\r'] :: lines cs
  | '\n' :: cs => ['\n'] :: lines cs
  | c :: cs =>
    match lines cs with
    | [] => [[c]]
    | l :: ls => (c :: l) :: ls

/-- a text with a line feed in place of whatever ends a line -/
def lineFeeds : List Char → List Char
  | [] => []
  | '\r' :: '\n' :: cs => '\n' :: lineFeeds cs
  | c :: cs => (if c == '\r' then '\n' else c) :: lineFeeds cs

/-- the number of bytes of a text in UTF-8 -/
def byteLength : List Char → Nat
  | [] => 0
  | c :: cs => c.utf8Size + byteLength cs

/-- the offsets at which lines start if the first one starts at `start`, and where the last one ends
-/
def startsFrom (start : Nat) : List (List Char) → List Nat
  | [] => [start]
  | l :: ls => start :: startsFrom (start + byteLength l) ls

/-- the byte offset of every line of a text, and that of its end -/
def lineStarts (text : List Char) : List Nat := startsFrom 0 (lines text)

theorem lines_flatten (text : List Char) : (lines text).flatten = text := by
  induction text using lines.induct with
  | case1 => rfl
  | case2 cs ih => simp [lines, ih]
  | case3 cs h ih => rw [lines.eq_3 _ h]; simp [ih]
  | case4 cs ih => simp [lines, ih]
  | case5 c cs _ _ _ h ih | case6 c cs _ _ _ l ls h ih =>
    rw [h] at ih
    rw [lines] <;> simp_all

end Reflow.Text
