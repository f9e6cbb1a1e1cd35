import Reflow.Source.Parameter
import Reflow.Source.Reader

/-!
# Reading expressions

An expression is read by levels, each of which reads operands of the next one: conditional,
disjunction, comparison, arithmetic, and the primaries with the calls, members and subscripts that
follow them.  Since an operation is kept by its name alone, one level is enough for all operators
that bind more tightly than comparisons do.

* `Levels`        how the expressions inside an expression are read;
* `Levels.outer`  the levels of an expression, given those of the expressions inside;
* `Source.expression`, `.named`, `.expressions`, `.targets`   the forms that statements use.
-/

namespace Reflow.Source

open Reader

/-- whether an expression can start with a token -/
def Lexeme.startsExpression : Lexeme → Bool
  | .name _ | .number _ | .text .. | .bytes | .formatted => true
  | .reserved w => [Reserved.true, .false, .none, .not, .lambda, .await].contains w
  | .mark m => [Mark.opening .round, .opening .square, .opening .curly, .tilde, .ellipsis,
      .operator .add, .operator .sub].contains m
  | _ => false

/-- whether an expression or one that is unpacked can start with a token -/
def Lexeme.startsItem (l : Lexeme) : Bool :=
  l.startsExpression || l == .mark (.operator .mult)

mutual
/-- whether a value can be assigned to a tree -/
def Tree.isTarget : Tree → Bool
  | .ident .. | .access .. => true
  | .other _ kind => kind == "Subscript" || kind == "Starred"
  | .tuple _ elts _ | .list _ elts _ => areTargets elts
  | _ => false
/-- whether values can be assigned to all trees of a list -/
def areTargets : List Tree → Bool
  | [] => true
  | t :: ts => t.isTarget && areTargets ts
end

mutual
/-- a tree as it stands where a value is assigned to it -/
def Tree.stored : Tree → Tree
  | .ident pos id _ => .ident pos id .store
  | .access pos value attr _ => .access pos value attr .store
  | .tuple pos elts _ => .tuple pos (storedAll elts) .store
  | .list pos elts _ => .list pos (storedAll elts) .store
  | t => t
/-- the trees of a list as they stand where values are assigned to them -/
def storedAll : List Tree → List Tree
  | [] => []
  | t :: ts => t.stored :: storedAll ts
end

/-- how the expressions inside an expression are read: any expression, one without a condition, and
one without a comparison -/
structure Levels where
  expression : Reader Tree
  disjunction : Reader Tree
  arithmetic : Reader Tree

namespace Levels

variable (inner : Levels)

/-- an expression that may give its value a name -/
def named : Reader Tree := do
  let pos ← place
  let e ← inner.expression
  match e with
  | .ident p _ _ =>
    if p = pos then
      if ← acceptMark .walrus then
        let _ ← inner.expression
        return .other pos "NamedExpr"
    return e
  | _ => return e

/-- what `plain` reads, or after a star an expression that is unpacked -/
def starred (unpacked plain : Reader Tree) : Reader Tree := do
  let pos ← place
  if ← acceptMark (.operator .mult) then
    let _ ← unpacked
    return .other pos "Starred"
  else plain

/-- an item of a display such as a list: any expression, with a name for its value or unpacked -/
def item : Reader Tree := starred inner.arithmetic inner.named

/-- one item, or a tuple of several without brackets -/
def sequence (item : Reader Tree) : Reader Tree := do
  let pos ← place
  match ← separated Lexeme.startsItem item with
  | ([t], false) => return t
  | (ts, _) => return .tuple pos ts

/-- one expression, or a tuple of several without brackets -/
def expressions : Reader Tree := sequence (starred inner.arithmetic inner.expression)

/-- what values are assigned to in a loop -/
def targets : Reader Tree := do
  let t ← sequence (starred inner.arithmetic inner.arithmetic)
  if t.isTarget then return t.stored else stuck

/-- what follows the word that passes a value out of a function; that word is at `pos` -/
def yielded (pos : Position) : Reader Tree := do
  if ← acceptWord .from then
    let _ ← inner.expression
    return .other pos "YieldFrom"
  else
    if (← next).lexeme.startsItem then
      let _ ← inner.expressions
    return .other pos "Yield"

def startsClause (l : Lexeme) : Bool := l == .reserved .for || l == .reserved .async

/-- a loop inside an expression, with its conditions -/
def clause : Reader Unit := do
  let _ ← acceptWord .async
  expectWord .for
  let _ ← inner.targets
  expectWord .in
  let _ ← inner.disjunction
  let _ ← allWhile (· == .reserved .if) do
    skip
    inner.disjunction

/-- the loops after an item, and whether there are any -/
def clauses : Reader Bool := do return !(← allWhile startsClause inner.clause).isEmpty

/-- the constant of text constants that follow each other; a note is that of the first one -/
def textConstant (pos : Position) (parts : List Lexeme) : Tree :=
  if parts.contains .formatted then .other pos "JoinedStr"
  else if parts.contains .bytes then .constant pos (.other "bytes")
  else
    let noted := parts.head? matches some (.text _ true)
    let text := String.join (parts.map fun
      | .text s _ => s
      | _ => "")
    .constant pos (.text text) (if noted then some "u" else none)

def isText : Lexeme → Bool
  | .text .. | .bytes | .formatted => true
  | _ => false

/-- what follows an opening parenthesis at `pos` -/
def parenthesized (pos : Position) : Reader Tree := do
  if ← acceptMark (.closing .round) then return .tuple pos []
  let start ← place
  if ← acceptWord .yield then
    let t ← inner.yielded start
    expectMark (.closing .round)
    return t
  let unpacked ← sees (.mark (.operator .mult))
  let first ← inner.item
  if !unpacked then
    if ← inner.clauses then
      expectMark (.closing .round)
      return .other pos "GeneratorExp"
  let comma ← sees (.mark .comma)
  if unpacked && !comma then stuck
  let rest ← items Lexeme.startsItem inner.item
  expectMark (.closing .round)
  return if comma then .tuple pos (first :: rest) else first

/-- what follows an opening square bracket at `pos` where an operand can stand -/
def bracketed (pos : Position) : Reader Tree := do
  if ← acceptMark (.closing .square) then return .list pos []
  let unpacked ← sees (.mark (.operator .mult))
  let first ← inner.item
  if !unpacked then
    if ← inner.clauses then
      expectMark (.closing .square)
      return .other pos "ListComp"
  let rest ← items Lexeme.startsItem inner.item
  expectMark (.closing .square)
  return .list pos (first :: rest)

/-- an entry of a dictionary: a key and a value, or a mapping that is unpacked -/
def entry : Reader (Option Tree × Tree) := do
  if ← acceptMark (.operator .pow) then return (none, ← inner.arithmetic)
  let key ← inner.expression
  expectMark .colon
  return (some key, ← inner.expression)

def startsEntry (l : Lexeme) : Bool := l.startsExpression || l == .mark (.operator .pow)

/-- the further entries of a dictionary that starts at `pos` -/
def entries (pos : Position) (first : Option Tree × Tree) : Reader Tree := do
  let all := first :: (← items startsEntry inner.entry)
  expectMark (.closing .curly)
  return .dict pos (all.map (·.1)) (all.map (·.2))

/-- what follows an opening curly bracket at `pos` -/
def braced (pos : Position) : Reader Tree := do
  if ← acceptMark (.closing .curly) then return .dict pos [] []
  if ← sees (.mark (.operator .pow)) then
    let first ← inner.entry
    inner.entries pos first
  else
    let unpacked ← sees (.mark (.operator .mult))
    let first ← inner.item
    if !unpacked then
      if ← acceptMark .colon then
        let value ← inner.expression
        if ← inner.clauses then
          expectMark (.closing .curly)
          return .other pos "DictComp"
        return ← inner.entries pos (some first, value)
      if ← inner.clauses then
        expectMark (.closing .curly)
        return .other pos "SetComp"
    let _ ← items Lexeme.startsItem inner.item
    expectMark (.closing .curly)
    return .other pos "Set"

/-- an operand without what follows it -/
def atom : Reader Tree := do
  let pos ← place
  let l := (← next).lexeme
  if isText l then return textConstant pos (← allWhile isText do
    let part := (← next).lexeme
    skip
    return part)
  let constant (c : Constant) : Reader Tree := do
    skip
    return .constant pos c
  match l with
  | .name id =>
    skip
    return .ident pos id
  | .number n => constant (.number n)
  | .reserved .none => constant .nothing
  | .reserved .true => constant (.bool true)
  | .reserved .false => constant (.bool false)
  | .mark .ellipsis => constant (.other "ellipsis")
  | .mark (.opening .round) =>
    skip
    inner.parenthesized pos
  | .mark (.opening .square) =>
    skip
    inner.bracketed pos
  | .mark (.opening .curly) =>
    skip
    inner.braced pos
  | _ => stuck

/-- an argument of a call: by position or by name, and either kind unpacked -/
def argument : Reader (Tree ⊕ Keyword) := do
  let pos ← place
  if ← acceptMark (.operator .mult) then
    let _ ← inner.expression
    return .inl (.other pos "Starred")
  if ← acceptMark (.operator .pow) then return .inr (.mk pos none (← inner.expression))
  let e ← inner.named
  match e with
  | .ident p id _ =>
    if p = pos then
      if ← acceptMark .equals then return .inr (.mk pos (some id) (← inner.expression))
    return .inl e
  | _ => return .inl e

def startsArgument (l : Lexeme) : Bool := l.startsItem || l == .mark (.operator .pow)

/-- the arguments by position and those by name, each in order -/
def divide (arguments : List (Tree ⊕ Keyword)) : List Tree × List Keyword :=
  (arguments.filterMap fun
    | .inl t => some t
    | .inr _ => none,
   arguments.filterMap fun
    | .inl _ => none
    | .inr k => some k)

/-- the arguments after an opening parenthesis.  If that is at `pos?`, the argument may be a single
expression with loops, which takes its place. -/
def arguments (pos? : Option Position) : Reader (List Tree × List Keyword) := do
  if ← acceptMark (.closing .round) then return ([], [])
  let unpacked ← sees (.mark (.operator .mult))
  let first ← inner.argument
  match pos?, first with
  | some pos, .inl _ =>
    if !unpacked then
      if ← inner.clauses then
        expectMark (.closing .round)
        return ([.other pos "GeneratorExp"], [])
  | _, _ => pure ()
  let others ← items startsArgument inner.argument
  expectMark (.closing .round)
  return divide (first :: others)

/-- a subscript: an expression, or a range of which any part may be missing -/
def subscript : Reader Unit := do
  let bound : Reader Unit := do
    if (← next).lexeme.startsExpression then
      let _ ← inner.expression
  if !(← sees (.mark .colon)) then
    let _ ← starred inner.expression inner.named
  if ← acceptMark .colon then
    bound
    if ← acceptMark .colon then bound

def startsSubscript (l : Lexeme) : Bool := l.startsItem || l == .mark .colon

/-- what follows an operand that starts at `pos`: a member, a call or a subscript -/
def trailer (pos : Position) (t : Tree) : Reader (Option Tree) := do
  let start ← place
  if ← acceptMark .dot then return some (.access pos t (← name))
  if ← acceptMark (.opening .round) then
    let (args, keywords) ← inner.arguments (some start)
    return some (.call pos t args keywords)
  if ← acceptMark (.opening .square) then
    let _ ← separated startsSubscript inner.subscript
    expectMark (.closing .square)
    return some (.other pos "Subscript")
  return none

/-- an operand with what follows it -/
def primary : Reader Tree := do
  let pos ← place
  follow (inner.trailer pos) (← inner.atom)

/-- an operand, which may be awaited -/
def awaited : Reader Tree := do
  let pos ← place
  if ← acceptWord .await then
    let _ ← inner.primary
    return .other pos "Await"
  else inner.primary

def isSign (l : Lexeme) : Bool :=
  [Mark.tilde, .operator .add, .operator .sub].any (l == .mark ·)

/-- an operand with the signs before it and the powers it is raised to -/
def factor : Reader Tree := do
  let pos ← place
  let signs ← allWhile isSign skip
  let base ← inner.awaited
  let powers ← allWhile (· == .mark (.operator .pow)) do
    skip
    let _ ← allWhile isSign skip
    inner.awaited
  return if !signs.isEmpty then .other pos "UnaryOp"
    else if !powers.isEmpty then .other pos "BinOp" else base

def isArithmetic : Lexeme → Bool
  | .mark (.operator op) => [Operator.add, .sub, .mult, .matMult, .div, .floorDiv, .mod, .lShift,
      .rShift, .bitAnd, .bitXor, .bitOr].contains op
  | _ => false

/-- operands with operators between them, none of which is a comparison -/
def arithmeticRule : Reader Tree := do
  let pos ← place
  let first ← inner.factor
  let others ← allWhile isArithmetic do
    skip
    inner.factor
  return if others.isEmpty then first else .other pos "BinOp"

/-- the name of the comparison that comes next, if one does -/
def comparator? : Reader (Option String) := do
  match (← next).lexeme with
  | .mark (.operator op) =>
    if [Operator.lt, .ltE, .gt, .gtE, .eq, .notEq].contains op then
      skip
      return some op.name
    else return none
  | .reserved .in =>
    skip
    return some "In"
  | .reserved .not =>
    skip
    expectWord .in
    return some "NotIn"
  | .reserved .is =>
    skip
    return some (if ← acceptWord .not then "IsNot" else "Is")
  | _ => return none

/-- the comparison that comes next, if one does, with the operand after it -/
def link (arithmetic : Reader Tree) : Reader (Option (String × Tree)) := do
  match ← comparator? with
  | some op => return some (op, ← arithmetic)
  | none => return none

/-- a chain of comparisons -/
def comparison (arithmetic : Reader Tree) : Reader Tree := do
  let pos ← place
  let first ← arithmetic
  let others ← all (link arithmetic)
  return if others.isEmpty then first
    else .compare pos first (others.map (·.1)) (others.map (·.2))

/-- a comparison, which may be negated -/
def inversion (arithmetic : Reader Tree) : Reader Tree := do
  let pos ← place
  let negations ← allWhile (· == .reserved .not) skip
  let t ← comparison arithmetic
  return if negations.isEmpty then t else .other pos "UnaryOp"

/-- comparisons joined by `and` and `or` -/
def disjunctionRule (arithmetic : Reader Tree) : Reader Tree := do
  let pos ← place
  let first ← inversion arithmetic
  let others ← allWhile (fun l => l == .reserved .and || l == .reserved .or) do
    skip
    inversion arithmetic
  return if others.isEmpty then first else .other pos "BoolOp"

/-- what follows the word that starts a function without a name, which is at `pos` -/
def lambda (pos : Position) : Reader Tree := do
  if !(← sees (.mark .colon)) then
    let _ ← parameters inner.expression none
  expectMark .colon
  let _ ← inner.expression
  return .other pos "Lambda"

/-- any expression -/
def expressionRule (disjunction : Reader Tree) : Reader Tree := do
  let pos ← place
  if ← acceptWord .lambda then inner.lambda pos
  else
    let t ← disjunction
    if ← acceptWord .if then
      let _ ← disjunction
      expectWord .else
      let _ ← inner.expression
      return .other pos "IfExp"
    else return t

/-- the levels of an expression, given those of the expressions inside it -/
def outer : Levels :=
  let arithmetic := inner.arithmeticRule
  let disjunction := disjunctionRule arithmetic
  ⟨inner.expressionRule disjunction, disjunction, arithmetic⟩

/-- the levels of expressions that are nested less than `depth` deep -/
def upTo : Nat → Levels
  | 0 => ⟨stuck, stuck, stuck⟩
  | depth + 1 => (upTo depth).outer

/-- reads with the levels of all expressions there can be room for: an expression inside another one
starts at least one token further on -/
def within {α : Type} (p : Levels → Reader α) : Reader α := fun ts => p (upTo (ts.length + 1)) ts

end Levels

/-- an expression -/
def expression : Reader Tree := Levels.within (·.expression)

/-- an expression that may give its value a name -/
def namedExpression : Reader Tree := Levels.within Levels.named

/-- one expression, or a tuple of several without brackets -/
def expressions : Reader Tree := Levels.within Levels.expressions

/-- what values are assigned to in a loop -/
def targets : Reader Tree := Levels.within Levels.targets

/-- what a single value is assigned to -/
def target : Reader Tree := do
  let t ← Levels.within (·.arithmetic)
  if t.isTarget then return t.stored else stuck

/-- one item of a display, or a tuple of several -/
def displayed : Reader Tree := Levels.within fun l => Levels.sequence l.item

/-- the arguments after an opening parenthesis, none of which has loops -/
def arguments : Reader (List Tree × List Keyword) := Levels.within (Levels.arguments · none)

/-- what is assigned or stands as a statement: an expression, several, or a value that is passed out
-/
def value : Reader Tree := do
  let pos ← place
  if ← acceptWord .yield then Levels.within (Levels.yielded · pos) else expressions

end Reflow.Source
