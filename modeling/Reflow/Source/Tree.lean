import Reflow.Number.Basic

/-!
# Syntax trees of source text

The tree that reading source text gives.  A node has a position: a line, if it is known, and a
column in bytes.  Of the constructs that have no counterpart in the printed tree only the name is
kept, and of decorations such as annotations only whether there are any.

Some fields are notes: the letter before a text, what a place in an assignment is used for, comments
that give types.  They come last, since most trees have none of them.
-/

namespace Reflow.Source

/-- where a node starts: its line, counted from one, and its column in bytes -/
structure Position where
  line? : Option Int := none
  column : Int := 0
  deriving DecidableEq, Inhabited, Repr

/-- the value of a constant; of the values that cannot be written only the type is kept -/
inductive Constant where
  | nothing
  | bool (b : Bool)
  | text (s : String)
  | number (n : Number)
  | other (typeName : String)
  deriving DecidableEq, Inhabited, Repr

/-- what a name, a member or a display is used for where it stands: its value is read, something is
assigned to it, or it is deleted -/
inductive Usage where
  | load
  | store
  | delete
  deriving DecidableEq, Inhabited, Repr

/-- a parameter of a function -/
structure Parameter where
  pos : Position
  name : String
  annotated : Bool := false
  typeComment? : Option String := none
  deriving DecidableEq, Inhabited, Repr

mutual
/-- a statement or an expression -/
inductive Tree where
  | function (pos : Position) (name : String) (decorated generic returns : Bool)
      (params : Parameters) (body : List Tree) (typeComment? : Option String := none)
  | classDef (pos : Position) (name : String) (decorated keyworded generic : Bool)
      (bases body : List Tree)
  | expression (pos : Position) (value : Tree)
  | call (pos : Position) (callee : Tree) (args : List Tree) (keywords : List Keyword)
  /-- the kind is the letter before a text that asks for the characters of Unicode -/
  | constant (pos : Position) (value : Constant) (kind? : Option String := none)
  | ident (pos : Position) (id : String) (usage : Usage := .load)
  | forLoop (pos : Position) (target iter : Tree) (body orElse : List Tree)
      (typeComment? : Option String := none)
  | tuple (pos : Position) (elts : List Tree) (usage : Usage := .load)
  | list (pos : Position) (elts : List Tree) (usage : Usage := .load)
  | assign (pos : Position) (targets : List Tree) (value : Tree)
      (typeComment? : Option String := none)
  | augAssign (pos : Position) (target : Tree) (op : String) (value : Tree)
  /-- an entry without a key is a mapping that is unpacked -/
  | dict (pos : Position) (keys : List (Option Tree)) (values : List Tree)
  | access (pos : Position) (value : Tree) (attr : String) (usage : Usage := .load)
  | compare (pos : Position) (left : Tree) (ops : List String) (comparators : List Tree)
  /-- a construct of which only the name is kept -/
  | other (pos : Position) (kind : String)
/-- the parameters of a function; the defaults belong to the last positional parameters, and a
parameter by name has its own default or none -/
inductive Parameters where
  | mk (posOnly params : List Parameter) (vararg : Option Parameter) (kwOnly : List Parameter)
      (kwDefaults : List (Option Tree)) (kwarg : Option Parameter) (defaults : List Tree)
/-- an argument by name; one without a name is a mapping that is unpacked -/
inductive Keyword where
  | mk (pos : Position) (name : Option String) (value : Tree)
end

instance : Inhabited Tree := ⟨.other {} ""⟩

/-- a comment that tells type checkers to ignore its line -/
structure TypeIgnore where
  line : Int
  tag : String
  deriving DecidableEq, Inhabited, Repr

/-- the top-level statements of a source text -/
structure Module where
  body : List Tree
  typeIgnores : List TypeIgnore := []

namespace Parameters

def positional : Parameters → List Parameter
  | .mk posOnly params .. => posOnly ++ params

/-- whether some parameter has an annotation -/
def annotated : Parameters → Bool
  | .mk posOnly params vararg kwOnly _ kwarg _ =>
    (posOnly ++ params ++ kwOnly ++ vararg.toList ++ kwarg.toList).any (·.annotated)

end Parameters

namespace Tree

def pos : Tree → Position
  | .function pos .. | .classDef pos .. | .expression pos _ | .call pos .. | .constant pos ..
  | .ident pos .. | .forLoop pos .. | .tuple pos .. | .list pos .. | .assign pos ..
  | .augAssign pos .. | .dict pos .. | .access pos .. | .compare pos .. | .other pos _ => pos

end Tree

end Reflow.Source
