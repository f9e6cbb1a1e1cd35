import Reflow.Source.Fault
import Reflow.Source.Literal
import Reflow.Text.Lines

/-!
# From characters to tokens

Source text is cut into tokens from left to right.  At the start of a line the margin is compared
with those of the blocks that are open: a wider one opens a block (`indent`), a narrower one closes
as many as it leaves (`dedent`).  Blank lines and comments do not count, and between brackets
neither margins nor line ends do.

* `Cursor`       a place in the text;
* `Scanner`      a cursor with the blocks and brackets that are open;
* `Scanner.step` the next tokens, or the fault that stands in their place;
* `scan`         all tokens of a text, up to its end or the first fault.
-/

namespace Reflow.Source

/-- a place in a text, and the characters from there on -/
structure Cursor where
  rest : List Char
  line : Nat := 1
  column : Nat := 0
  bytes : Nat := 0

namespace Cursor

/-- the place `n` characters further on -/
def advance : Nat → Cursor → Cursor
  | 0, c => c
  | n + 1, c =>
    match c.rest with
    | [] => c
    | ch :: cs =>
      advance n <|
        if ch == '\n' then ⟨cs, c.line + 1, 0, 0⟩
        else ⟨cs, c.line, c.column + 1, c.bytes + ch.utf8Size⟩

/-- a token at this place -/
def token (c : Cursor) (l : Lexeme) : Token := ⟨l, c.line, c.column, c.bytes⟩

/-- a fault at this place -/
def fault (c : Cursor) (f : Fault) : ReadError := ⟨f, c.line, c.column + 1⟩

end Cursor

/-- a bracket that is open, with its place -/
structure OpenBracket where
  bracket : Bracket
  line : Nat
  column : Nat

/-- a place in the text with what is open there, the innermost first -/
structure Scanner where
  cursor : Cursor
  /-- the margins of the blocks -/
  margins : List Nat := []
  brackets : List OpenBracket := []
  /-- whether the place is the start of a line -/
  isFresh : Bool := true

/-- what scanning gives: the tokens, and the fault that stands in place of further ones -/
structure Scanned where
  tokens : List Token
  fault? : Option ReadError

/-- one step of scanning -/
inductive Step where
  | more (tokens : List Token) (s : Scanner)
  | done (tokens : List Token)
  | failed (e : ReadError)

/-- the width and the length of the blanks at the start of a line: a tab goes on to the next
multiple of eight and a form feed back to zero.  The width up to the first backslash at the end of a
line counts, unless it is zero. -/
def margin (atBackslash width length : Nat) : List Char → Nat × Nat
  | ' ' :: cs => margin atBackslash (width + 1) (length + 1) cs
  | '\t' :: cs => margin atBackslash ((width / 8 + 1) * 8) (length + 1) cs
  | '\x0c' :: cs => margin atBackslash 0 (length + 1) cs
  | '\\' :: '\n' :: cs =>
    margin (if atBackslash = 0 then width else atBackslash) width (length + 2) cs
  | _ => (if atBackslash = 0 then width else atBackslash, length)

def isBlank (c : Char) : Bool := c == ' ' || c == '\t' || c == '\x0c'

/-- a letter, the underscore, or any character above the first 128 -/
def isNameStart (c : Char) : Bool := c.isAlpha || c == '_' || 128 ≤ c.toNat

def isNameChar (c : Char) : Bool := isNameStart c || c.isDigit

/-- the token of a word -/
def word (cs : List Char) : Lexeme :=
  let s := String.ofList cs
  match Reserved.ofText? s with
  | some w => .reserved w
  | none => .name s

namespace Scanner

/-- the blocks that are left at a margin, and those that stay open -/
def closed (width : Nat) : List Nat → List Nat × List Nat
  | [] => ([], [])
  | m :: ms =>
    if width < m then
      let (left, kept) := closed width ms
      (m :: left, kept)
    else ([], m :: ms)

/-- the last place of a text that ends at `c`, which is the start of a line: the end of the line
before, with what ends it -/
def finishToken (c : Cursor) (l : Lexeme) (lastLine : Nat) : Token := ⟨l, c.line - 1, lastLine, 0⟩

/-- the tokens for the margin of a line, and the blocks that are open after it -/
def layout (c : Cursor) (width : Nat) (margins : List Nat) : Option (List Token × List Nat) :=
  let (left, kept) := closed width margins
  let innermost := kept.headD 0
  if width = innermost then some (left.map fun _ => c.token .dedent, kept)
  else if left.isEmpty then some ([c.token .indent], width :: kept)
  else none

/-- a single token that starts at the cursor, and its length -/
def lexeme? (cs : List Char) : Option (Lexeme × Nat) :=
  match cs with
  | [] => none
  | c :: rest =>
    if isNameStart c then
      let letters := cs.takeWhile isNameChar
      some (word letters, letters.length)
    else if c.isDigit || (c == '.' && rest.head?.any Char.isDigit) then
      some <| match Literal.number? cs with
        | some (n, length) => (.number n, length)
        | none => (.malformed, 1)
    else some <| match Mark.scan cs with
      | some (m, length) => (.mark m, length)
      | none => (.malformed, 1)

/-- the brackets that are open after a token, unless it closes one that is not the innermost -/
def bracketsAfter (c : Cursor) (brackets : List OpenBracket) :
    Lexeme → Except Fault (List OpenBracket)
  | .mark (.opening b) => .ok (⟨b, c.line, c.column⟩ :: brackets)
  | .mark (.closing b) =>
    match brackets with
    | [] => .error (.unmatched b)
    | o :: os =>
      if o.bracket = b then .ok os
      else .error (.mismatched b o.bracket (if o.line = c.line then none else some o.line))
  | _ => .ok brackets

/-- the token at the cursor, which is neither blank nor at the start of a line -/
def tokenStep (s : Scanner) : Step :=
  let c := s.cursor
  match Literal.quotation? c.rest with
  | some (.ended l length) => .more [c.token l] { s with cursor := c.advance length }
  | some (.open triple lines) =>
    .failed (c.fault
      (if triple then .unterminatedTriple (c.line + lines) else .unterminated (c.line + lines)))
  | none =>
    match lexeme? c.rest with
    | none => .done []
    | some (l, length) =>
      match bracketsAfter c s.brackets l with
      | .error f => .failed (c.fault f)
      | .ok brackets => .more [c.token l] { s with cursor := c.advance length, brackets }

/-- the end of the text: all blocks end, but a bracket may not be open -/
def finishStep (s : Scanner) (lastLine : Nat) : Step :=
  match s.brackets with
  | o :: _ => .failed ⟨.neverClosed o.bracket, o.line, o.column + 1⟩
  | [] =>
    .done (s.margins.map (fun _ => finishToken s.cursor .dedent lastLine) ++
      [finishToken s.cursor .finish lastLine])

/-- the next tokens at the start of a line; `lastLine` is the length of the last line of the text -/
def freshStep (lastLine : Nat) (s : Scanner) : Step :=
  let (width, length) := margin 0 0 0 s.cursor.rest
  let c := s.cursor.advance length
  let s := { s with cursor := c, isFresh := false }
  match c.rest with
  | [] => finishStep s lastLine
  | ch :: _ =>
    if ch == '#' || ch == '\n' then
      let comment := c.rest.takeWhile (· != '\n')
      .more [] { s with cursor := c.advance (comment.length + 1), isFresh := true }
    else if !s.brackets.isEmpty then .more [] s
    else match layout c width s.margins with
      | some (tokens, margins) => .more tokens { s with margins }
      | none =>
        let line := c.rest.takeWhile (· != '\n')
        .failed ⟨.inconsistentUnindent, c.line, c.column + line.length + 1⟩

/-- the next tokens -/
def step (lastLine : Nat) (s : Scanner) : Step :=
  let c := s.cursor
  match c.rest with
  | [] => finishStep s lastLine
  | ch :: rest =>
    if s.isFresh then freshStep lastLine s
    else if isBlank ch then .more [] { s with cursor := c.advance 1 }
    else if ch == '#' then
      .more [] { s with cursor := c.advance (c.rest.takeWhile (· != '\n')).length }
    else if ch == '\n' then
      let tokens := if s.brackets.isEmpty then [c.token .newline] else []
      .more tokens { s with cursor := c.advance 1, isFresh := true }
    else if ch == '\\' && rest.head? == some '\n' then
      .more [] { s with cursor := c.advance 2 }
    else tokenStep s

/-- all further tokens, in at most `fuel` steps -/
def run (lastLine : Nat) : Nat → Scanner → Scanned
  | 0, _ => ⟨[], none⟩
  | fuel + 1, s =>
    match s.step lastLine with
    | .more tokens s =>
      let scanned := run lastLine fuel s
      { scanned with tokens := tokens ++ scanned.tokens }
    | .done tokens => ⟨tokens, none⟩
    | .failed e => ⟨[], some e⟩

end Scanner

/-- the text as it is scanned: every line ends with a line feed, the last one too -/
def endingLines (text : List Char) : List Char :=
  let text := Text.lineFeeds text
  if text.getLast? == some '\n' then text else text ++ ['\n']

/-- the tokens of a text.  Every step but those at the start of a line takes a character, and no two
of these follow each other without taking one. -/
def scan (text : List Char) : Scanned :=
  let text := endingLines text
  let lastLine := ((text.reverse.drop 1).takeWhile (· != '\n')).length + 1
  Scanner.run lastLine (2 * text.length + 2) { cursor := ⟨text, 1, 0, 0⟩ }

end Reflow.Source
