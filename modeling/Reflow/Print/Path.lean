import Reflow.Node.Field
import Reflow.Print.Rules

/-!
# Paths and printing

A path is a node together with the nodes around it, up to the root.  Printing walks along paths: the
rule of a node is applied to what is printed for the paths to its children.

* `Path.child`      the path to a child, by field and place;
* `Path.printWith`  the rule of one node, with any way to print its children;
* `Path.print`      the whole tree below a path;
* `Path.print_eq`   printing is `printWith` itself as the way to print the children.
-/

namespace Reflow

/-- a node and the nodes around it, the nearest first -/
structure Path where
  node : Node
  above : List Node := []

namespace Path

def root (n : Node) : Path := ⟨n, []⟩

/-- the path to a node inside the node of this path -/
def down (p : Path) (child : Node) : Path := ⟨child, p.node :: p.above⟩

def parent? (p : Path) : Option Node := p.above.head?

/-- the path to the parent; the root stays where it is -/
def up (p : Path) : Path :=
  match p.above with
  | [] => p
  | parent :: above => ⟨parent, above⟩

/-- whether the node stands directly inside a tuple or a list -/
def inSequence (p : Path) : Bool := p.parent?.any Node.isSequence

/-- the element at a place; a negative place counts from the end -/
def element? (ns : List Node) (place : Int) : Option Node :=
  let place := if place < 0 then place + ns.length else place
  if place < 0 then none else ns[place.toNat]?

def slot (p : Path) (field : String) : Except PrintError Slot :=
  match p.node.field? field with
  | some s => .ok s
  | none => .error (.noField p.node.typeName field)

/-- the path to the child in a field, or to the element at a place in that field -/
def child (p : Path) (field : String) (place? : Option Int) : Except PrintError Path := do
  let n : Node ← match ← p.slot field, place? with
    | .node n, none => .ok n
    | .value v, none => .ok (.plain v)
    | .nodes _, none => .ok (.plain .nodes)
    | .nodes ns, some place => match element? ns place with
      | some n => .ok n
      | none => .error .outOfRange
    | s, some _ => .error (.notSubscriptable s.typeName)
  if n.isNothing then .error (.emptyField field p.node.typeName) else .ok (p.down n)

/-- what is printed for a child by `f`, unless nothing stands in its place -/
def printChild (p : Path) (f : Path → Printed) (field : String) (child : Node) : Printed :=
  p.node.present field child (f (p.down child))

/-- what is printed by `f` for each of the nodes in a field -/
def printChildren (p : Path) (f : Path → Printed) (field : String) (ns : List Node) :
    List Printed :=
  ns.map (p.printChild f field)

/-- the rule of one node, with `f` to print its children -/
def printWith (f : Path → Printed) (p : Path) : Printed :=
  let one := p.printChild f
  let all := p.printChildren f
  match p.node with
  | .module _ body => Rule.module (all "body" body)
  | .function _ name params body => Rule.function name (one "args" params) (all "body" body)
  | .parameters _ posOnly params defaults vararg kwOnly kwDefaults kwarg =>
    Rule.parameters posOnly.length
      (Rule.merged (posOnly ++ params) defaults (all "posonlyargs" posOnly ++ all "args" params)
        (all "defaults" defaults))
      (if vararg.isNothing then none else some (one "vararg" vararg))
      (if kwOnly.isEmpty then none else some (Rule.merged kwOnly kwDefaults
        (all "kwonlyargs" kwOnly) (all "kw_defaults" kwDefaults)))
      (if kwarg.isNothing then none else some (one "kwarg" kwarg))
  | .parameter _ name => .ok (.text name)
  | .expression _ value => one "value" value
  | .call _ callee args keywords => Rule.call callee (all "args" args) (all "keywords" keywords)
  | .keyword _ name value => Rule.keyword name (one "value" value)
  | .string _ s => Rule.string s
  | .number _ n => Rule.number n
  | .constant _ value => Rule.constant value
  | .ident _ id => .ok (.text id)
  | .forLoop _ target iter body orElse =>
    Rule.forLoop (one "target" target) (one "iter" iter) (all "body" body) (all "orelse" orElse)
  | .tuple _ elts => Rule.tuple p.inSequence (all "elts" elts)
  | .list _ elts => Rule.list (all "elts" elts)
  | .assign _ targets value => Rule.assign (all "targets" targets) (one "value" value)
  | .augAssign _ target op value =>
    Rule.augAssign (one "target" target) (one "op" op) (one "value" value)
  | .dict _ keys values => Rule.dict (all "keys" keys) (all "values" values)
  | .classDef _ name bases body => Rule.classDef name (all "bases" bases) (all "body" body)
  | .access _ value attr => Rule.access (one "value" value) attr
  | .compare _ left ops comparators =>
    Rule.compare (one "left" left) (all "ops" ops) (all "comparators" comparators)
  | .operator _ op => Rule.operator op
  | .unsupported _ kind detail => .error (.unsupported kind detail)
  | .plain value => .error (.unsupported value.typeName none)

end Path

namespace Node

mutual
/-- what is printed for a node below the given ancestors -/
def printBelow (above : List Node) (n : Node) : Printed :=
  match n with
  | .module _ body => Rule.module (printAllBelow above n "body" body)
  | .function _ name params body =>
    Rule.function name (n.present "args" params (params.printBelow (n :: above)))
      (printAllBelow above n "body" body)
  | .parameters _ posOnly params defaults vararg kwOnly kwDefaults kwarg =>
    Rule.parameters posOnly.length
      (Rule.merged (posOnly ++ params) defaults
        (printAllBelow above n "posonlyargs" posOnly ++ printAllBelow above n "args" params)
        (printAllBelow above n "defaults" defaults))
      (if vararg.isNothing then none
        else some (n.present "vararg" vararg (vararg.printBelow (n :: above))))
      (if kwOnly.isEmpty then none
        else some (Rule.merged kwOnly kwDefaults (printAllBelow above n "kwonlyargs" kwOnly)
          (printAllBelow above n "kw_defaults" kwDefaults)))
      (if kwarg.isNothing then none
        else some (n.present "kwarg" kwarg (kwarg.printBelow (n :: above))))
  | .parameter _ name => .ok (.text name)
  | .expression _ value => n.present "value" value (value.printBelow (n :: above))
  | .call _ callee args keywords =>
    Rule.call callee (printAllBelow above n "args" args) (printAllBelow above n "keywords" keywords)
  | .keyword _ name value =>
    Rule.keyword name (n.present "value" value (value.printBelow (n :: above)))
  | .string _ s => Rule.string s
  | .number _ x => Rule.number x
  | .constant _ value => Rule.constant value
  | .ident _ id => .ok (.text id)
  | .forLoop _ target iter body orElse =>
    Rule.forLoop (n.present "target" target (target.printBelow (n :: above)))
      (n.present "iter" iter (iter.printBelow (n :: above)))
      (printAllBelow above n "body" body) (printAllBelow above n "orelse" orElse)
  | .tuple _ elts =>
    Rule.tuple (above.head?.any isSequence) (printAllBelow above n "elts" elts)
  | .list _ elts => Rule.list (printAllBelow above n "elts" elts)
  | .assign _ targets value =>
    Rule.assign (printAllBelow above n "targets" targets)
      (n.present "value" value (value.printBelow (n :: above)))
  | .augAssign _ target op value =>
    Rule.augAssign (n.present "target" target (target.printBelow (n :: above)))
      (n.present "op" op (op.printBelow (n :: above)))
      (n.present "value" value (value.printBelow (n :: above)))
  | .dict _ keys values =>
    Rule.dict (printAllBelow above n "keys" keys) (printAllBelow above n "values" values)
  | .classDef _ name bases body =>
    Rule.classDef name (printAllBelow above n "bases" bases) (printAllBelow above n "body" body)
  | .access _ value attr =>
    Rule.access (n.present "value" value (value.printBelow (n :: above))) attr
  | .compare _ left ops comparators =>
    Rule.compare (n.present "left" left (left.printBelow (n :: above)))
      (printAllBelow above n "ops" ops) (printAllBelow above n "comparators" comparators)
  | .operator _ op => Rule.operator op
  | .unsupported _ kind detail => .error (.unsupported kind detail)
  | .plain value => .error (.unsupported value.typeName none)
/-- what is printed for each of the nodes in a field of `owner` -/
def printAllBelow (above : List Node) (owner : Node) (field : String) : List Node → List Printed
  | [] => []
  | n :: ns =>
    owner.present field n (n.printBelow (owner :: above)) :: printAllBelow above owner field ns
end

/-- the document of a whole tree -/
def print (n : Node) : Printed := n.printBelow []

theorem printAllBelow_eq_map (above : List Node) (owner : Node) (field : String) (ns : List Node) :
    printAllBelow above owner field ns =
      ns.map fun n => owner.present field n (n.printBelow (owner :: above)) := by
  induction ns with
  | nil => rfl
  | cons n ns ih => rw [printAllBelow, ih]; rfl

end Node

namespace Path

/-- what is printed for the whole tree below a path -/
def print (p : Path) : Printed := p.node.printBelow p.above

theorem print_eq (p : Path) : p.print = p.printWith print := by
  obtain ⟨n, above⟩ := p
  cases n <;>
    simp only [print, printWith, printChildren, Node.printBelow, Node.printAllBelow_eq_map] <;> rfl

/-- what is printed by `f` for the elements of several fields, as parameters of which the elements
of another field are the defaults -/
def mergeFields (p : Path) (f : Path → Printed) (fields : List String) (defaultsField : String) :
    Except PrintError (List Doc) := do
  let params ← fields.mapM fun field => do
    match ← p.slot field with
    | .nodes ns => return (ns, p.printChildren f field ns)
    | s => throw (.notSequence s.typeName)
  match ← p.slot defaultsField with
  | .nodes defaults =>
    Rule.merged (params.flatMap (·.1)) defaults (params.flatMap (·.2))
      (p.printChildren f defaultsField defaults)
  | s => throw (.notSequence s.typeName)

/-- what is printed by `f` for each element of a field -/
def mapField (p : Path) (f : Path → Printed) (field : String) : Except PrintError (List Doc) := do
  match ← p.slot field with
  | .nodes ns => Printed.all (p.printChildren f field ns)
  | s => throw (.notSequence s.typeName)

/-- a stand-in for the document of a path: the kind of its node between angle brackets -/
def outline (p : Path) : Printed := .ok (.text ("<" ++ p.node.kind ++ ">"))

end Path

end Reflow
