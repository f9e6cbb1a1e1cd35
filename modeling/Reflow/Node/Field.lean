import Reflow.Node.Basic

/-!
# Fields of nodes

The fields of a node by name, in the order in which they are shown.  A field holds one node, a
sequence of nodes, or a plain value.
-/

namespace Reflow

/-- what a field holds -/
inductive Slot where
  | node (n : Node)
  | nodes (ns : List Node)
  | value (v : Value)
  deriving Inhabited

namespace Slot

def text (s : String) : Slot := .value (.text s)

def text? (s : Option String) : Slot := .value (s.elim .nothing .text)

def typeName : Slot → String
  | .node n => n.typeName
  | .nodes _ => "tuple"
  | .value v => v.typeName

end Slot

namespace Node

/-- the fields of a node, without its offset -/
def ownFields : Node → List (String × Slot)
  | .module _ body => [("body", .nodes body)]
  | .function _ name params body =>
    [("name", .text name), ("args", .node params), ("body", .nodes body)]
  | .parameters _ posOnly params defaults vararg kwOnly kwDefaults kwarg =>
    [("args", .nodes params), ("defaults", .nodes defaults), ("vararg", .node vararg),
     ("kwonlyargs", .nodes kwOnly), ("kw_defaults", .nodes kwDefaults), ("kwarg", .node kwarg),
     ("posonlyargs", .nodes posOnly)]
  | .parameter _ name => [("arg", .text name)]
  | .expression _ value => [("value", .node value)]
  | .call _ callee args keywords =>
    [("func", .node callee), ("args", .nodes args), ("keywords", .nodes keywords)]
  | .keyword _ name value => [("arg", .text? name), ("value", .node value)]
  | .string _ s => [("s", .text s)]
  | .number _ n => [("n", .value (.number n))]
  | .constant _ value => [("value", .value (value.elim .nothing .bool))]
  | .ident _ id => [("id", .text id)]
  | .forLoop _ target iter body orElse =>
    [("target", .node target), ("iter", .node iter), ("body", .nodes body),
     ("orelse", .nodes orElse)]
  | .tuple _ elts | .list _ elts => [("elts", .nodes elts)]
  | .assign _ targets value => [("targets", .nodes targets), ("value", .node value)]
  | .augAssign _ target op value =>
    [("target", .node target), ("op", .node op), ("value", .node value)]
  | .dict _ keys values => [("keys", .nodes keys), ("values", .nodes values)]
  | .classDef _ name bases body =>
    [("name", .text name), ("bases", .nodes bases), ("body", .nodes body)]
  | .access _ value attr => [("value", .node value), ("attr", .text attr)]
  | .compare _ left ops comparators =>
    [("left", .node left), ("ops", .nodes ops), ("comparators", .nodes comparators)]
  | .operator _ op => [("kind", .value (.operator op))]
  | .unsupported _ kind detail => [("kind", .text kind), ("detail", .text? detail)]
  | .plain _ => []

/-- the fields of a node, the offset last -/
def fields (n : Node) : List (String × Slot) :=
  match n.offset? with
  | some offset => n.ownFields ++ [("col_offset", .value (.number (.int offset)))]
  | none => n.ownFields

def field? (n : Node) (name : String) : Option Slot := n.fields.lookup name

end Node

end Reflow
