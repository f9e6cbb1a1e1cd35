import Reflow.Source.Expression

/-!
# Reading patterns

The patterns of a `match` statement.  Nothing of them is kept: a reader of patterns only finds out
where one ends.

* `Pattern.outer`   a pattern, given how the patterns inside it are read;
* `Source.patterns` the patterns of one case.
-/

namespace Reflow.Source

open Reader

namespace Pattern

/-- whether a pattern, or a star with a name, can start with a token -/
def starts : Lexeme → Bool
  | .name _ | .number _ | .text _ | .bytes | .formatted => true
  | .reserved w => [Reserved.true, .false, .none].contains w
  | .mark m => [Mark.opening .round, .opening .square, .opening .curly, .operator .sub,
      .operator .mult, .operator .pow].contains m
  | _ => false

/-- a number, which may be negative and have an imaginary part -/
def number : Reader Unit := do
  let part : Reader Unit := do
    if (← next).lexeme matches .number _ then skip else stuck
  let _ ← acceptMark (.operator .sub)
  part
  if ← acceptMark (.operator .add) then part
  else if ← acceptMark (.operator .sub) then part

/-- a name, or a member of a member of a name -/
def path : Reader Unit := do
  let _ ← name
  let _ ← allWhile (· == .mark .dot) do
    skip
    name

/-- a pattern that is a constant, if one comes next, and whether one does -/
def constant : Reader Bool := do
  let l := (← next).lexeme
  if Levels.isText l then
    let _ ← allWhile Levels.isText skip
    return true
  match l with
  | .number _ | .mark (.operator .sub) =>
    number
    return true
  | .reserved .none | .reserved .true | .reserved .false =>
    skip
    return true
  | _ => return false

variable (inner : Reader Unit)

/-- patterns with commas between them, up to a closing bracket -/
def listed (item : Reader Unit) (b : Bracket) : Reader Unit := do
  if ← acceptMark (.closing b) then return
  let _ ← separated starts item
  expectMark (.closing b)

/-- a pattern, or a star with the name of what is left -/
def item : Reader Unit := do
  if ← acceptMark (.operator .mult) then
    let _ ← name
  else inner

/-- an argument of a class pattern, by position or by name -/
def argument : Reader Unit := do
  inner
  if ← acceptMark .equals then inner

/-- a key with a pattern for its value, or two stars with the name of what is left -/
def entry : Reader Unit := do
  if ← acceptMark (.operator .pow) then
    let _ ← name
  else
    if !(← constant) then path
    expectMark .colon
    inner

/-- a pattern without alternatives -/
def closed : Reader Unit := do
  if ← constant then return
  if ← acceptMark (.opening .round) then listed (item inner) .round
  else if ← acceptMark (.opening .square) then listed (item inner) .square
  else if ← acceptMark (.opening .curly) then listed (entry inner) .curly
  else
    path
    if ← acceptMark (.opening .round) then listed (argument inner) .round

/-- a pattern with alternatives, and perhaps a name for what it fits -/
def outer : Reader Unit := do
  closed inner
  let _ ← allWhile (· == .mark (.operator .bitOr)) do
    skip
    closed inner
  if ← acceptWord .as then
    let _ ← name

/-- a pattern in which patterns are nested less than `depth` deep -/
def upTo : Nat → Reader Unit
  | 0 => stuck
  | depth + 1 => outer (upTo depth)

end Pattern

/-- one pattern, or several with commas between them -/
def patterns : Reader Unit := fun ts =>
  (do let _ ← separated Pattern.starts (Pattern.item (Pattern.upTo (ts.length + 1)))
      return () : Reader Unit) ts

end Reflow.Source
