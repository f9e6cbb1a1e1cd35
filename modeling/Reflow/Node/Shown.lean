import Reflow.Node.Basic
import Reflow.Text.Shown

/-!
# Nodes shown as text

A node is shown as a record with its fields in order and its offset last.  An operator is shown by
its constant and its name.
-/

namespace Reflow

/-- an integer or another number that can be written -/
def Number.shown (n : Number) : Shown := .word (n.text?.getD "")

def Operator.shown (op : Operator) : Shown :=
  match op with
  | .other name => .text name
  | _ => .word ("<OperatorKind." ++ op.constant ++ ": " ++ Text.quoted op.name ++ ">")

/-- a text, or nothing -/
def shownText? : Option String → Shown
  | some s => .text s
  | none => .word "None"

/-- a truth value, or nothing -/
def shownBool? : Option Bool → Shown
  | some true => .word "True"
  | some false => .word "False"
  | none => .word "None"

def Value.shown : Value → Shown
  | .nothing => .word "None"
  | .bool b => shownBool? (some b)
  | .number n => n.shown
  | .text s => .text s
  | .operator op => op.shown
  | .nodes => .tuple []

/-- a record for a node of the given class -/
def shownNode (tag : String) (offset : Int) (fields : List ShownField) : Shown :=
  .record ("Ast" ++ tag) (fields ++ [.mk "col_offset" (.word (toString offset))])

namespace Node

mutual
def shown : Node → Shown
  | .module offset body => shownNode "Module" offset [.mk "body" (.tuple (shownAll body))]
  | .function offset name params body =>
    shownNode "FunctionDef" offset
      [.mk "name" (.text name), .mk "args" params.shown, .mk "body" (.tuple (shownAll body))]
  | .parameters offset posOnly params defaults vararg kwOnly kwDefaults kwarg =>
    shownNode "Arguments" offset
      [.mk "args" (.tuple (shownAll params)), .mk "defaults" (.tuple (shownAll defaults)),
       .mk "vararg" vararg.shown, .mk "kwonlyargs" (.tuple (shownAll kwOnly)),
       .mk "kw_defaults" (.tuple (shownAll kwDefaults)), .mk "kwarg" kwarg.shown,
       .mk "posonlyargs" (.tuple (shownAll posOnly))]
  | .parameter offset name => shownNode "Arg" offset [.mk "arg" (.text name)]
  | .expression offset value => shownNode "Expr" offset [.mk "value" value.shown]
  | .call offset callee args keywords =>
    shownNode "Call" offset
      [.mk "func" callee.shown, .mk "args" (.tuple (shownAll args)),
       .mk "keywords" (.tuple (shownAll keywords))]
  | .keyword offset name value =>
    shownNode "Keyword" offset [.mk "arg" (shownText? name), .mk "value" value.shown]
  | .string offset s => shownNode "Str" offset [.mk "s" (.text s)]
  | .number offset n => shownNode "Num" offset [.mk "n" n.shown]
  | .constant offset value => shownNode "NameConstant" offset [.mk "value" (shownBool? value)]
  | .ident offset id => shownNode "Name" offset [.mk "id" (.text id)]
  | .forLoop offset target iter body orElse =>
    shownNode "For" offset
      [.mk "target" target.shown, .mk "iter" iter.shown, .mk "body" (.tuple (shownAll body)),
       .mk "orelse" (.tuple (shownAll orElse))]
  | .tuple offset elts => shownNode "Tuple" offset [.mk "elts" (.tuple (shownAll elts))]
  | .list offset elts => shownNode "List" offset [.mk "elts" (.tuple (shownAll elts))]
  | .assign offset targets value =>
    shownNode "Assign" offset
      [.mk "targets" (.tuple (shownAll targets)), .mk "value" value.shown]
  | .augAssign offset target op value =>
    shownNode "AugAssign" offset
      [.mk "target" target.shown, .mk "op" op.shown, .mk "value" value.shown]
  | .dict offset keys values =>
    shownNode "Dict" offset
      [.mk "keys" (.tuple (shownAll keys)), .mk "values" (.tuple (shownAll values))]
  | .classDef offset name bases body =>
    shownNode "ClassDef" offset
      [.mk "name" (.text name), .mk "bases" (.tuple (shownAll bases)),
       .mk "body" (.tuple (shownAll body))]
  | .access offset value attr =>
    shownNode "Attribute" offset [.mk "value" value.shown, .mk "attr" (.text attr)]
  | .compare offset left ops comparators =>
    shownNode "Compare" offset
      [.mk "left" left.shown, .mk "ops" (.tuple (shownAll ops)),
       .mk "comparators" (.tuple (shownAll comparators))]
  | .operator offset op => shownNode "Operator" offset [.mk "kind" op.shown]
  | .unsupported offset kind detail =>
    shownNode "Unsupported" offset [.mk "kind" (.text kind), .mk "detail" (shownText? detail)]
  | .plain value => value.shown
def shownAll : List Node → List Shown
  | [] => []
  | n :: ns => n.shown :: shownAll ns
end

end Node

end Reflow
