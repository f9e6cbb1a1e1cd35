import Reflow.Node.Basic

/-!
# Which default belongs to which parameter

Parameters and defaults come in two lists with no link between them: a default belongs to the
parameter it follows in the source.  The two lists are merged by offset, a parameter before a
default at the same place; then a parameter takes the node after it as its default unless that is a
parameter, too.  The walk ends when every parameter has been met, so a default that stands where no
parameter takes it is left out.
-/

namespace Reflow

/-- walks along merged nodes, of which it is told only whether they are parameters, until `count`
parameters are paired: each with its number, and with the number of its default if it has one -/
def pairUp : (count param dflt : Nat) → List Bool → List (Nat × Option Nat)
  | 0, _, _, _ => []
  | _ + 1, _, _, [] => []
  | count + 1, param, dflt, _ :: false :: rest =>
    (param, some dflt) :: pairUp count (param + 1) (dflt + 1) rest
  | count + 1, param, dflt, _ :: rest => (param, none) :: pairUp count (param + 1) dflt rest

/-- nodes in order with one more of them, which comes before those at the same place -/
def insertByOffset (n : Node) : List Node → List Node
  | [] => [n]
  | m :: ms => if n.offset ≤ m.offset then n :: m :: ms else m :: insertByOffset n ms

/-- parameters and defaults in the order of the source -/
def mergedByOffset (params defaults : List Node) : List Node :=
  (params ++ defaults).foldr insertByOffset []

/-- each parameter with the number of its default, if it has one -/
def pairParameters (params defaults : List Node) : List (Nat × Option Nat) :=
  pairUp params.length 0 0 ((mergedByOffset params defaults).map Node.isParameter)

end Reflow
