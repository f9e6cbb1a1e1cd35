import Reflow.Node.Operator
import Reflow.Number.Basic

/-!
# Tokens

The words of source text: names and reserved words, constants, brackets and other marks, and the
tokens of layout, which say where a line ends and where the indentation changes.

* `Reserved`, `Bracket`, `Mark`   the reserved words and the punctuation, each with its spelling;
* `Lexeme`                       a token without its place;
* `Token`                        a token with its place.

The operators of the printed tree are those that have a symbol there; `in`, `is` and `not` are
words.
-/

namespace Reflow.Source

/-- a reserved word -/
inductive Reserved where
  | true | false | none | and | as | assert | async | await | break | defineClass | continue
  | define | del | elif | else | except | finally | for | from | global | if | import | in | is
  | lambda | nonlocal | not | or | pass | raise | return | try | while | with | yield
  deriving DecidableEq, Inhabited, Repr

namespace Reserved

def spelling : Reserved → String
  | .true => "True" | .false => "False" | .none => "None" | .and => "and" | .as => "as"
  | .assert => "assert" | .async => "async" | .await => "await" | .break => "break"
  | .defineClass => "class" | .continue => "continue" | .define => "def" | .del => "del"
  | .elif => "elif" | .else => "else" | .except => "except" | .finally => "finally" | .for => "for"
  | .from => "from" | .global => "global" | .if => "if" | .import => "import" | .in => "in"
  | .is => "is" | .lambda => "lambda" | .nonlocal => "nonlocal" | .not => "not" | .or => "or"
  | .pass => "pass" | .raise => "raise" | .return => "return" | .try => "try"
  | .while => "while" | .with => "with" | .yield => "yield"

def all : List Reserved :=
  [.true, .false, .none, .and, .as, .assert, .async, .await, .break, .defineClass, .continue,
   .define, .del, .elif, .else, .except, .finally, .for, .from, .global, .if, .import, .in, .is,
   .lambda, .nonlocal, .not, .or, .pass, .raise, .return, .try, .while, .with, .yield]

/-- the reserved word that is spelled like this, if there is one -/
def ofText? (s : String) : Option Reserved := all.find? (·.spelling == s)

end Reserved

/-- a kind of bracket -/
inductive Bracket where
  | round
  | square
  | curly
  deriving DecidableEq, Inhabited, Repr

namespace Bracket

def opening : Bracket → Char
  | .round => '('
  | .square => '['
  | .curly => '\x7b'

def closing : Bracket → Char
  | .round => ')'
  | .square => ']'
  | .curly => '\x7d'

end Bracket

/-- a bracket, an operator or another mark -/
inductive Mark where
  | opening (b : Bracket)
  | closing (b : Bracket)
  | comma | colon | semicolon | dot | ellipsis | arrow | walrus | equals | tilde
  | operator (op : Operator)
  /-- an assignment that combines the old value with the new one -/
  | augmented (op : Operator)
  deriving DecidableEq, Inhabited, Repr

namespace Mark

/-- the marks of each length with their spellings, the longest first -/
def table : List (String × Mark) :=
  [("**=", .augmented .pow), ("//=", .augmented .floorDiv), (">>=", .augmented .rShift),
   ("<<=", .augmented .lShift), ("...", .ellipsis),
   ("+=", .augmented .add), ("-=", .augmented .sub), ("*=", .augmented .mult),
   ("/=", .augmented .div), ("%=", .augmented .mod), ("@=", .augmented .matMult),
   ("&=", .augmented .bitAnd), ("|=", .augmented .bitOr), ("^=", .augmented .bitXor),
   ("**", .operator .pow), ("//", .operator .floorDiv), ("<<", .operator .lShift),
   (">>", .operator .rShift), ("<=", .operator .ltE), (">=", .operator .gtE),
   ("==", .operator .eq), ("!=", .operator .notEq), ("->", .arrow), (":=", .walrus),
   ("(", .opening .round), ("[", .opening .square), ("\x7b", .opening .curly),
   (")", .closing .round), ("]", .closing .square), ("\x7d", .closing .curly),
   ("+", .operator .add), ("-", .operator .sub), ("*", .operator .mult), ("/", .operator .div),
   ("%", .operator .mod), ("@", .operator .matMult), ("&", .operator .bitAnd),
   ("|", .operator .bitOr), ("^", .operator .bitXor), ("<", .operator .lt), (">", .operator .gt),
   ("=", .equals), (",", .comma), (":", .colon), (";", .semicolon), (".", .dot), ("~", .tilde)]

/-- the longest mark that a text starts with, and its length -/
def scan (cs : List Char) : Option (Mark × Nat) :=
  (table.find? fun (spelling, _) => spelling.toList.isPrefixOf cs).map fun (spelling, m) =>
    (m, spelling.length)

end Mark

/-- a token without its place -/
inductive Lexeme where
  | name (s : String)
  | reserved (w : Reserved)
  | number (n : Number)
  /-- a text, and whether the letter before it is to be noted -/
  | text (s : String) (unicode : Bool := false)
  /-- a constant of bytes, of which the contents do not matter -/
  | bytes
  /-- a text with expressions inside, of which the contents do not matter -/
  | formatted
  | mark (m : Mark)
  /-- characters that form no token -/
  | malformed
  | newline
  | indent
  | dedent
  /-- the end of the text -/
  | finish
  deriving DecidableEq, Inhabited, Repr

/-- a token at its place: the line counted from one, the column in characters and in bytes -/
structure Token where
  lexeme : Lexeme
  line : Nat
  column : Nat
  bytes : Nat
  deriving DecidableEq, Inhabited, Repr

/-- whether a token only stands for layout, so that its column is that of what follows it -/
def Lexeme.isLayout : Lexeme → Bool
  | .indent | .dedent | .finish => true
  | _ => false

def Lexeme.isName : Lexeme → Bool
  | .name _ => true
  | _ => false

/-- the offset of a token, counted from one; that of a token of layout is one less -/
def Token.offset (t : Token) : Nat := if t.lexeme.isLayout then t.column else t.column + 1

end Reflow.Source
