import Reflow.Source.Pattern

/-!
# Reading statements

A statement is simple and stands on a line, perhaps with others, or it has blocks.  A block stands
after a colon: on the same line, or indented on the lines that follow.

* `simple`      a simple statement;
* `block`       the statements of a block;
* `compound`    a statement with blocks, or a line of simple ones, given how those inside are read;
* `statement`, `statements`   any statement, and all of a text.
-/

namespace Reflow.Source

open Reader

/-! ### simple statements -/

/-- whether an annotation, or an assignment that combines values, can have this target -/
def Tree.isSingleTarget : Tree → Bool
  | .ident .. | .access .. => true
  | .other _ kind => kind == "Subscript"
  | _ => false

/-- an assignment of any kind, or an expression as a statement -/
def assignment : Reader Tree := do
  let pos ← place
  let first ← value
  match (← next).lexeme with
  | .mark .colon =>
    if first.isSingleTarget then
      skip
      let _ ← expression
      if ← acceptMark .equals then
        let _ ← value
      return .other pos "AnnAssign"
    else return .expression pos first
  | .mark (.augmented op) =>
    if first.isSingleTarget then
      skip
      return .augAssign pos first.stored op.name (← value)
    else stuck
  | .mark .equals =>
    let others ← allWhile (· == .mark .equals) do
      skip
      value
    let targets := (first :: others).dropLast
    if areTargets targets then
      return .assign pos (storedAll targets) (others.getLast?.getD first)
    else stuck
  | _ => return .expression pos first

/-- a name with the names of the modules around it -/
def dottedName : Reader Unit := do
  let _ ← name
  let _ ← allWhile (· == .mark .dot) do
    skip
    name

/-- what `p` reads, and perhaps another name for it -/
def renamed {α : Type} (p : Reader α) : Reader Unit := do
  let _ ← p
  if ← acceptWord .as then
    let _ ← name

/-- what `p` reads, once or several times with commas between them -/
def commas {α : Type} (p : Reader α) : Reader Unit := do
  let _ ← p
  let _ ← allWhile (· == .mark .comma) do
    skip
    p

/-- an import from a module, after the first word -/
def importFrom : Reader Unit := do
  let dots ← allWhile (fun l => l == .mark .dot || l == .mark .ellipsis) skip
  if dots.isEmpty || (← next).lexeme.isName then dottedName
  expectWord .import
  if ← acceptMark (.operator .mult) then return
  if ← acceptMark (.opening .round) then
    let _ ← separated Lexeme.isName (renamed name)
    expectMark (.closing .round)
  else commas (renamed name)

/-- a simple statement -/
def simple : Reader Tree := do
  let pos ← place
  let l := (← next).lexeme
  let done (kind : String) (rest : Reader Unit := pure ()) : Reader Tree := do
    skip
    rest
    return .other pos kind
  match l with
  | .reserved .pass => done "Pass"
  | .reserved .break => done "Break"
  | .reserved .continue => done "Continue"
  | .reserved .return => done "Return" do
    if (← next).lexeme.startsItem then
      let _ ← expressions
  | .reserved .raise => done "Raise" do
    if (← next).lexeme.startsExpression then
      let _ ← expression
      if ← acceptWord .from then
        let _ ← expression
  | .reserved .global => done "Global" (commas name)
  | .reserved .nonlocal => done "Nonlocal" (commas name)
  | .reserved .del => done "Delete" do
    let _ ← targets
  | .reserved .assert => done "Assert" do
    let _ ← expression
    if ← acceptMark .comma then
      let _ ← expression
  | .reserved .import => done "Import" (commas (renamed dottedName))
  | .reserved .from => done "ImportFrom" importFrom
  | _ => assignment

/-- a further simple statement of a line, if there is one -/
def furtherSimple : Reader (Option Tree) := do
  if ← acceptMark .semicolon then
    if ← sees .newline then return none else return some (← simple)
  else return none

/-- a line of simple statements with semicolons between them -/
def line : Reader (List Tree) := do
  let first ← simple
  let others ← all furtherSimple
  expect .newline
  return first :: others

/-! ### statements with blocks -/

/-- the parameters of a function in their parentheses -/
def enclosedParameters : Reader Parameters := do
  expectMark (.opening .round)
  if ← acceptMark (.closing .round) then return .mk [] [] none [] [] none []
  let params ← parameters expression (some (Levels.within fun l =>
    Levels.starred l.arithmetic l.expression))
  expectMark (.closing .round)
  return params

variable (statement : Reader (List Tree))

/-- the statements up to the end of the block they are in, of which there is at least one -/
def indented : Reader (List Tree) := do
  let first ← statement
  let others ← allWhile (· != .dedent) statement
  expect .dedent
  return first ++ others.flatten

/-- the block of a statement, with the colon before it; `owner` and `line` say which statement lacks
a block if there is none -/
def block (owner : String) (lineNumber : Nat) : Reader (List Tree) := do
  expectMark .colon
  if ← accept .newline then
    if ← accept .indent then indented statement else stuck (some (owner, lineNumber))
  else line

/-- the line of the next token, which is taken -/
def headLine : Reader Nat := do
  let t ← next
  skip
  return t.line

/-- a block that a reserved word opens, if it comes next -/
def blockAfter? (w : Reserved) : Reader (Option (List Tree)) := do
  if ← sees (.reserved w) then
    let n ← headLine
    return some (← block statement ("'" ++ w.spelling ++ "' statement") n)
  else return none

/-- a function, from the word that starts it -/
def function (decorated : Bool) : Reader Tree := do
  let pos ← place
  let n ← headLine
  let id ← name
  let params ← enclosedParameters
  let returns ← acceptMark .arrow
  if returns then
    let _ ← expression
  let body ← block statement "function definition" n
  return .function pos id decorated false returns params body

/-- a class, from the word that starts it -/
def classDefinition (decorated : Bool) : Reader Tree := do
  let pos ← place
  let n ← headLine
  let id ← name
  let (bases, keywords) ←
    if ← acceptMark (.opening .round) then arguments else pure ([], [])
  let body ← block statement "class definition" n
  return .classDef pos id decorated (!keywords.isEmpty) false bases body

/-- a loop over the elements of a value, from the word that starts it -/
def forLoop : Reader Tree := do
  let pos ← place
  let n ← headLine
  let t ← targets
  expectWord .in
  let iter ← expressions
  let body ← block statement "'for' statement" n
  let orElse ← blockAfter? statement .else
  return .forLoop pos t iter body (orElse.getD [])

/-- a value that is opened for a block, and perhaps what it is assigned to -/
def withItem : Reader Unit := do
  let _ ← expression
  if ← acceptWord .as then
    let _ ← target

/-- gets stuck unless a block comes next -/
def blockNext : Reader Unit := do
  if !(← sees (.mark .colon)) then stuck

/-- the values in parentheses -/
def enclosedItems : Reader Unit := do
  expectMark (.opening .round)
  let _ ← separated Lexeme.startsExpression withItem
  expectMark (.closing .round)
  blockNext

def plainItems : Reader Unit := do
  commas withItem
  blockNext

/-- a statement that opens values for a block.  The items may stand in parentheses, which can also
be those of the first item. -/
def withBlock : Reader Unit := do
  let n ← headLine
  orElse enclosedItems plainItems
  let _ ← block statement "'with' statement" n

/-- a condition and its block, from the word that starts them, which is spelled like this -/
def guarded (word : String) : Reader Unit := do
  let n ← headLine
  let _ ← namedExpression
  let _ ← block statement ("'" ++ word ++ "' statement") n

/-- a statement with conditions, from the word that starts it -/
def conditional : Reader Unit := do
  guarded statement "if"
  let _ ← allWhile (· == .reserved .elif) (guarded statement "elif")
  let _ ← blockAfter? statement .else

/-- a loop with a condition, from the word that starts it -/
def whileLoop : Reader Unit := do
  guarded statement "while"
  let _ ← blockAfter? statement .else

/-- the block for an exception, and whether it is one for groups of them -/
def handler : Reader Bool := do
  let n ← headLine
  let star ← acceptMark (.operator .mult)
  if star || !(← sees (.mark .colon)) then renamed expression
  let _ ← block statement (if star then "'except*' statement" else "'except' statement") n
  return star

/-- a block with the blocks for its exceptions, and its kind -/
def tryBlock : Reader String := do
  let n ← headLine
  let _ ← block statement "'try' statement" n
  let stars ← allWhile (· == .reserved .except) (handler statement)
  if !stars.isEmpty then
    let _ ← blockAfter? statement .else
  let last? ← blockAfter? statement .finally
  if stars.isEmpty && last?.isNone then stuck
  return if stars.any id then "TryStar" else "Try"

/-- one of the patterns of a choice with its block -/
def choiceCase : Reader Unit := do
  if !(← sees (.name "case")) then stuck
  let n ← headLine
  patterns
  if ← acceptWord .if then
    let _ ← namedExpression
  let _ ← block statement "'case' statement" n

/-- a choice between patterns, from the word that starts it, which is a name elsewhere -/
def choice : Reader Tree := do
  let pos ← place
  let n ← headLine
  let _ ← displayed
  expectMark .colon
  expect .newline
  if !(← accept .indent) then stuck (some ("'match' statement", n))
  choiceCase statement
  let _ ← allWhile (· == .name "case") (choiceCase statement)
  expect .dedent
  return .other pos "Match"

/-- a statement that starts with `match`, which is a choice if it can be one -/
def choiceOrLine : Reader (List Tree) :=
  orElse (do return [← choice statement]) line

/-- a statement after the word that makes it asynchronous -/
def asynchronous (decorated : Bool) : Reader Tree := do
  let pos ← place
  skip
  if ← sees (.reserved .define) then
    let _ ← function statement decorated
    return .other pos "AsyncFunctionDef"
  if decorated then stuck
  if ← sees (.reserved .for) then
    let _ ← forLoop statement
    return .other pos "AsyncFor"
  if ← sees (.reserved .with) then
    withBlock statement
    return .other pos "AsyncWith"
  stuck

def decorator : Reader Unit := do
  skip
  let _ ← namedExpression
  expect .newline

/-- a function or a class after its decorators -/
def decorated : Reader Tree := do
  let _ ← allWhile (· == .mark (.operator .matMult)) decorator
  match (← next).lexeme with
  | .reserved .define => function statement true
  | .reserved .defineClass => classDefinition statement true
  | .reserved .async => asynchronous statement true
  | _ => stuck

/-- a statement with blocks, or a line of simple ones -/
def compound : Reader (List Tree) := do
  let pos ← place
  let other (kind : String) (p : Reader Unit) : Reader (List Tree) := do
    p
    return [.other pos kind]
  match (← next).lexeme with
  | .reserved .define => return [← function statement false]
  | .reserved .defineClass => return [← classDefinition statement false]
  | .reserved .for => return [← forLoop statement]
  | .reserved .if => other "If" (conditional statement)
  | .reserved .while => other "While" (whileLoop statement)
  | .reserved .with => other "With" (withBlock statement)
  | .reserved .try => return [.other pos (← tryBlock statement)]
  | .reserved .async => return [← asynchronous statement false]
  | .mark (.operator .matMult) => return [← decorated statement]
  | .name "match" => choiceOrLine statement
  | _ => line

/-- a statement in which blocks are nested less than `depth` deep -/
def statementUpTo : Nat → Reader (List Tree)
  | 0 => stuck
  | depth + 1 => compound (statementUpTo depth)

/-- all statements of a text.  Every block starts at least one token after the statement around it.
-/
def statements : Reader (List Tree) := fun ts =>
  (do let all ← allWhile (· != .finish) (statementUpTo (ts.length + 1))
      return all.flatten : Reader (List Tree)) ts

end Reflow.Source
