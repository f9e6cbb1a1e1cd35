import Reflow.Source.Reader

/-!
# Reading parameters

The parameters of a function, in the order in which they can stand: those by position, a slash after
the ones that have no name for the caller, then `*` with or without a name, those by name, and `**`
with a name.

* `ParameterItem`        what can stand between the commas;
* `Parameters.ofItems?`  the parameters that these items make up, if they can be in this order.
-/

namespace Reflow.Source

open Reader

/-- what stands between the commas of a list of parameters -/
inductive ParameterItem where
  | plain (p : Parameter) (default? : Option Tree)
  | slash
  | star (p? : Option Parameter)
  | doubleStar (p : Parameter)

namespace ParameterItem

/-- the parameters by name, and the one that takes the rest of them -/
def byName? : List ParameterItem → Option (List (Parameter × Option Tree) × Option Parameter)
  | [] => some ([], none)
  | [.doubleStar p] => some ([], some p)
  | .plain p default? :: items =>
    (byName? items).map fun (ps, kwarg) => ((p, default?) :: ps, kwarg)
  | _ => none

/-- the plain parameters at the start, and what follows them -/
def spanPlain : List ParameterItem → List (Parameter × Option Tree) × List ParameterItem
  | .plain p default? :: items =>
    let (ps, rest) := spanPlain items
    ((p, default?) :: ps, rest)
  | items => ([], items)

/-- the plain parameters at the start, the ones before a slash apart, and what follows them -/
def spanPositional (items : List ParameterItem) :
    List (Parameter × Option Tree) × List (Parameter × Option Tree) × List ParameterItem :=
  let (front, rest) := spanPlain items
  match rest with
  | .slash :: rest =>
    let (params, rest) := spanPlain rest
    (front, params, rest)
  | rest => ([], front, rest)

/-- the parameter that takes further values by position, if there is one, and what follows it; a
star without a name needs a parameter after it -/
def spanStar : List ParameterItem → Option Parameter × List ParameterItem
  | .star (some p) :: rest => (some p, rest)
  | .star none :: .plain p default? :: rest => (none, .plain p default? :: rest)
  | rest => (none, rest)

/-- whether no parameter without a default follows one that has one -/
def defaultsLast : List (Parameter × Option Tree) → Bool
  | [] => true
  | (_, default?) :: ps => (default?.isNone || ps.all (·.2.isSome)) && defaultsLast ps

end ParameterItem

open ParameterItem in
/-- the parameters that items make up, if they can be in this order -/
def Parameters.ofItems? (items : List ParameterItem) : Option Parameters :=
  let (posOnly, params, rest) := spanPositional items
  let (vararg, rest) := spanStar rest
  let positional := posOnly ++ params
  if !defaultsLast positional || (items matches .slash :: _) then none
  else (byName? rest).map fun (kwOnly, kwarg) =>
    .mk (posOnly.map (·.1)) (params.map (·.1)) vararg (kwOnly.map (·.1)) (kwOnly.map (·.2)) kwarg
      (positional.filterMap (·.2))

/-- whether a parameter can start with a token -/
def Lexeme.startsParameter : Lexeme → Bool
  | .name _ => true
  | .mark m => [Mark.operator .mult, .operator .pow, .operator .div].contains m
  | _ => false

variable (expression : Reader Tree) (annotation? : Option (Reader Tree))

/-- a parameter without its default -/
def parameter : Reader Parameter := do
  let pos ← place
  let name ← name
  match annotation? with
  | none => return { pos, name }
  | some annotation =>
    if ← acceptMark .colon then
      let _ ← annotation
      return { pos, name, annotated := true }
    else return { pos, name }

def parameterItem : Reader ParameterItem := do
  if ← acceptMark (.operator .div) then return .slash
  if ← acceptMark (.operator .pow) then return .doubleStar (← parameter annotation?)
  if ← acceptMark (.operator .mult) then
    if (← next).lexeme.isName then return .star (some (← parameter annotation?))
    else return .star none
  let p ← parameter annotation?
  if ← acceptMark .equals then return .plain p (some (← expression)) else return .plain p none

/-- the parameters of a function, of which there is at least one.  `expression` reads a default and
`annotation?`, if there can be annotations, one of these. -/
def parameters : Reader Parameters := do
  let (items, _) ← separated Lexeme.startsParameter (parameterItem expression annotation?)
  match Parameters.ofItems? items with
  | some ps => return ps
  | none => stuck

end Reflow.Source
