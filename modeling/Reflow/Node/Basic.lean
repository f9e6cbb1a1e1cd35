import Reflow.Node.Operator
import Reflow.Number.Basic

/-!
# The tree that is printed

`Node` is the syntax tree that the printing rules understand.  Every node carries its offset, the
place in the source where it starts; printing uses offsets for one thing only, to find out which
parameter a default belongs to.

A construct that has no printing rule is kept by its kind (`unsupported`).  Where a node is missing,
or something else stands in its place, there is a `plain` value.
-/

namespace Reflow

/-- a value that is not a node -/
inductive Value where
  | nothing
  | bool (b : Bool)
  | number (n : Number)
  | text (s : String)
  | operator (op : Operator)
  | nodes
  deriving DecidableEq, Inhabited, Repr

/-- a node of the tree that is printed -/
inductive Node where
  | module (offset : Int) (body : List Node)
  | function (offset : Int) (name : String) (params : Node) (body : List Node)
  /-- parameters, with the defaults apart from the parameters they belong to -/
  | parameters (offset : Int) (posOnly params defaults : List Node) (vararg : Node)
      (kwOnly kwDefaults : List Node) (kwarg : Node)
  | parameter (offset : Int) (name : String)
  /-- an expression as a statement -/
  | expression (offset : Int) (value : Node)
  | call (offset : Int) (callee : Node) (args keywords : List Node)
  /-- an argument by name; one without a name is a mapping that is unpacked -/
  | keyword (offset : Int) (name : Option String) (value : Node)
  | string (offset : Int) (s : String)
  | number (offset : Int) (n : Number)
  /-- a truth value, or none of them -/
  | constant (offset : Int) (value : Option Bool)
  | ident (offset : Int) (id : String)
  | forLoop (offset : Int) (target iter : Node) (body orElse : List Node)
  | tuple (offset : Int) (elts : List Node)
  | list (offset : Int) (elts : List Node)
  | assign (offset : Int) (targets : List Node) (value : Node)
  | augAssign (offset : Int) (target op value : Node)
  | dict (offset : Int) (keys values : List Node)
  | classDef (offset : Int) (name : String) (bases body : List Node)
  /-- a member of a value -/
  | access (offset : Int) (value : Node) (attr : String)
  /-- a chain of comparisons -/
  | compare (offset : Int) (left : Node) (ops comparators : List Node)
  | operator (offset : Int) (op : Operator)
  /-- a construct without a printing rule -/
  | unsupported (offset : Int) (kind : String) (detail : Option String)
  /-- no node at all -/
  | plain (value : Value)
  deriving Inhabited, BEq, Repr

/-- the name of the type of a value -/
def Value.typeName : Value → String
  | .nothing => "NoneType"
  | .bool _ => "bool"
  | .number (.int _) => "int"
  | .number (.float _) => "float"
  | .number (.complex _ _) => "complex"
  | .text _ | .operator (.other _) => "str"
  | .operator _ => "OperatorKind"
  | .nodes => "tuple"

namespace Node

/-- the place where a node would stand -/
def nothing : Node := .plain .nothing

def isNothing : Node → Bool
  | .plain .nothing => true
  | _ => false

/-- the offset of a node, if it is one -/
def offset? : Node → Option Int
  | .module offset _ | .function offset _ _ _ | .parameters offset _ _ _ _ _ _ _
  | .parameter offset _ | .expression offset _ | .call offset _ _ _ | .keyword offset _ _
  | .string offset _ | .number offset _ | .constant offset _ | .ident offset _
  | .forLoop offset _ _ _ _ | .tuple offset _ | .list offset _ | .assign offset _ _
  | .augAssign offset _ _ _ | .dict offset _ _ | .classDef offset _ _ _ | .access offset _ _
  | .compare offset _ _ _ | .operator offset _ | .unsupported offset _ _ => some offset
  | .plain _ => none

def offset (n : Node) : Int := n.offset?.getD 0

/-- the name of the class of a node -/
def tag : Node → String
  | .module .. => "Module"
  | .function .. => "FunctionDef"
  | .parameters .. => "Arguments"
  | .parameter .. => "Arg"
  | .expression .. => "Expr"
  | .call .. => "Call"
  | .keyword .. => "Keyword"
  | .string .. => "Str"
  | .number .. => "Num"
  | .constant .. => "NameConstant"
  | .ident .. => "Name"
  | .forLoop .. => "For"
  | .tuple .. => "Tuple"
  | .list .. => "List"
  | .assign .. => "Assign"
  | .augAssign .. => "AugAssign"
  | .dict .. => "Dict"
  | .classDef .. => "ClassDef"
  | .access .. => "Attribute"
  | .compare .. => "Compare"
  | .operator .. => "Operator"
  | .unsupported .. => "Unsupported"
  | .plain value => value.typeName

/-- the name of the type of a node, as messages give it -/
def typeName : Node → String
  | .plain value => value.typeName
  | n => "Ast" ++ n.tag

/-- the kind of a node: an operator and an unsupported construct have the kind they stand for, and
the parts of a parameter or argument list are written in lower case -/
def kind : Node → String
  | .operator _ op => op.name
  | .unsupported _ kind _ => kind
  | .parameters .. => "arguments"
  | .parameter .. => "arg"
  | .keyword .. => "keyword"
  | n => n.tag

def isParameter : Node → Bool
  | .parameter .. => true
  | _ => false

/-- whether a tuple inside this node needs its parentheses -/
def isSequence : Node → Bool
  | .tuple .. | .list .. => true
  | _ => false

end Node

end Reflow
