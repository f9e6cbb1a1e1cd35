import Reflow.Doc.Basic
import Reflow.Node.Basic
import Reflow.Print.Error
import Reflow.Print.Pairing

/-!
# Printing rules

One rule for each kind of node.  A rule gets what was printed for the children of its node, each a
document or the reason why there is none, and joins the documents; of several reasons the first one
in the order of printing is given.  No rule decides where a line ends.
-/

namespace Reflow

/-- what printing gives: a document, or why there is none -/
abbrev Printed := Except PrintError Doc

/-- the documents of a list of results, or the first reason why one is missing -/
def Printed.all : List Printed → Except PrintError (List Doc)
  | [] => .ok []
  | p :: ps => do
    let d ← p
    let ds ← Printed.all ps
    return d :: ds

/-- a result for a child of `owner`, unless nothing stands in the child's place -/
def Node.present (owner : Node) (field : String) (child : Node) (printed : Printed) : Printed :=
  if child.isNothing then .error (.emptyField field owner.typeName) else printed

namespace Rule

open Doc in
/-- top-level statements, with an empty line between two of them -/
def module (body : List Printed) : Printed :=
  if body.isEmpty then .ok (text "")
  else do
    let body ← Printed.all body
    return concat [join (concat [hardline, hardline]) body, hardline]

open Doc in
/-- the statements of a block, one per line and indented -/
def block (body : List Printed) : Printed := do
  let body ← Printed.all body
  return indent (concat [line, join hardline body])

open Doc in
def function (name : String) (params : Printed) (body : List Printed) : Printed := do
  let params ← params
  let body ← block body
  return concat [text "def ", text name,
    group (concat [text "(", indent (concat [softline, params]), softline, text ")"]) false,
    text ":", body]

open Doc in
/-- parameters with their defaults; `params` and `defaults` hold what was printed for each -/
def withDefaults (pairs : List (Nat × Option Nat)) (params defaults : List Printed) :
    Except PrintError (List Doc) :=
  Printed.all <| pairs.map fun (i, j?) => do
    let param ← (params[i]?).getD (.error .outOfRange)
    match j? with
    | none => return concat [param]
    | some j =>
      let dflt ← (defaults[j]?).getD (.error .outOfRange)
      return concat [param, text "=", dflt]

/-- parameters with their defaults, paired by the offsets of the nodes -/
def merged (paramNodes defaultNodes : List Node) (params defaults : List Printed) :
    Except PrintError (List Doc) :=
  match (paramNodes ++ defaultNodes).find? (·.offset?.isNone) with
  | some n => .error (.noField n.typeName "col_offset")
  | none => withDefaults (pairParameters paramNodes defaultNodes) params defaults

open Doc in
/-- the parameters of a function: `/` ends the positional ones, and `*` opens the ones by name if
no `*name` does -/
def parameters (posOnlyCount : Nat) (positional : Except PrintError (List Doc))
    (vararg : Option Printed) (byName : Option (Except PrintError (List Doc)))
    (kwarg : Option Printed) : Printed := do
  let positional ← positional
  let positional :=
    if posOnlyCount = 0 then positional
    else positional.take posOnlyCount ++ text "/" :: positional.drop posOnlyCount
  let star : List Doc ← match vararg with
    | some d => do pure [concat [text "*", ← d]]
    | none => pure (if byName.isSome then [text "*"] else [])
  let byName ← byName.getD (.ok [])
  let doubleStar : List Doc ← match kwarg with
    | some d => do pure [concat [text "**", ← d]]
    | none => pure []
  return join (concat [text ", ", softline]) (positional ++ star ++ byName ++ doubleStar)

open Doc in
/-- a call; only a name can be called -/
def call (callee : Node) (args keywords : List Printed) : Printed :=
  match callee with
  | .ident _ id => do
    let args ← Printed.all args
    let keywords ← Printed.all keywords
    return concat [text id, text "(", join (text ", ") (args ++ keywords), text ")"]
  | _ => .error (.unsupported callee.kind (some "call target"))

open Doc in
def keyword (name : Option String) (value : Printed) : Printed := do
  let value ← value
  return match name with
    | none => concat [text "**", value]
    | some name => concat [text name, text "=", value]

/-- a text constant, between double quotes as it stands -/
def string (s : String) : Printed := .ok (.text ("\"" ++ s ++ "\""))

def number (n : Number) : Printed :=
  match n.text? with
  | some s => .ok (.text s)
  | none => .error .integerTooLong

def constant : Option Bool → Printed
  | none => .ok (.text "None")
  | some true => .ok (.text "True")
  | some false => .ok (.text "False")

open Doc in
def forLoop (target iter : Printed) (body orElse : List Printed) : Printed := do
  let target ← target
  let iter ← iter
  let body ← block body
  let loop := [text "for ", target, text " in ", iter, text ":", body]
  if orElse.isEmpty then return concat loop
  else
    let orElse ← block orElse
    return concat (loop ++ [line, text "else:", orElse])

open Doc in
/-- a tuple: one item keeps its comma, and inside a tuple or list there are parentheses -/
def tuple (inSequence : Bool) (elts : List Printed) : Printed :=
  if elts.isEmpty then .ok (text "()")
  else do
    let elts ← Printed.all elts
    let items := match elts with
      | [item] => concat [item, text ","]
      | items => join (text ", ") items
    return if inSequence then concat [text "(", items, text ")"] else items

open Doc in
def list (elts : List Printed) : Printed := do
  let elts ← Printed.all elts
  return concat [text "[", join (text ", ") elts, text "]"]

open Doc in
def assign (targets : List Printed) (value : Printed) : Printed := do
  let targets ← Printed.all targets
  let value ← value
  return concat [join (text ", ") targets, text " = ", value]

open Doc in
def augAssign (target op value : Printed) : Printed := do
  let target ← target
  let op ← op
  let value ← value
  return concat [target, text " ", op, text "= ", value]

open Doc in
def dict (keys values : List Printed) : Printed := do
  let keys ← Printed.all keys
  let values ← Printed.all values
  let pairs := keys.zipWith (fun key value => concat [softline, key, text ": ", value]) values
  return group (concat [text "\x7b", indent (join (text ",") pairs), softline, text "\x7d"]) false

open Doc in
def classDef (name : String) (bases body : List Printed) : Printed := do
  let bases ←
    if bases.isEmpty then pure []
    else do
      let bases ← Printed.all bases
      pure [text "(", join (text ",") bases, text ")"]
  let body ← block body
  return concat ([text "class ", text name] ++ bases ++ [text ":", body])

open Doc in
def access (value : Printed) (attr : String) : Printed := do
  let value ← value
  return concat [value, text ".", text attr]

open Doc in
def compare (left : Printed) (ops comparators : List Printed) : Printed := do
  let ops ← Printed.all ops
  let comparators ← Printed.all comparators
  let pairs := ops.zipWith (fun op c => concat [text " ", op, text " ", c]) comparators
  let left ← left
  return concat (left :: pairs)

def operator (op : Operator) : Printed :=
  match op.symbol? with
  | some symbol => .ok (.text symbol)
  | none => .error (.unsupported op.name none)

end Rule

end Reflow
