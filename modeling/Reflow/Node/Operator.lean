/-!
# Operators

The operators of augmented assignments and comparisons that can be written, each with its name and
its symbol.  An operator of any other name is kept by name and has no symbol.
-/

namespace Reflow

/-- an operator, by the name it has in the syntax tree -/
inductive Operator where
  | add | sub | mult | matMult | div | floorDiv | mod | pow | lShift | rShift
  | bitAnd | bitXor | bitOr | lt | ltE | gt | gtE | eq | notEq
  /-- an operator that cannot be written -/
  | other (name : String)
  deriving DecidableEq, Inhabited, Repr

namespace Operator

/-- the operators that can be written -/
def all : List Operator :=
  [add, sub, mult, matMult, div, floorDiv, mod, pow, lShift, rShift, bitAnd, bitXor, bitOr,
   lt, ltE, gt, gtE, eq, notEq]

/-- the name of an operator in the syntax tree -/
def name : Operator → String
  | .add => "Add" | .sub => "Sub" | .mult => "Mult" | .matMult => "MatMult" | .div => "Div"
  | .floorDiv => "FloorDiv" | .mod => "Mod" | .pow => "Pow" | .lShift => "LShift"
  | .rShift => "RShift" | .bitAnd => "BitAnd" | .bitXor => "BitXor" | .bitOr => "BitOr"
  | .lt => "Lt" | .ltE => "LtE" | .gt => "Gt" | .gtE => "GtE" | .eq => "Eq" | .notEq => "NotEq"
  | .other name => name

/-- how an operator is written -/
def symbol? : Operator → Option String
  | .add => some "+" | .sub => some "-" | .mult => some "*" | .matMult => some "@"
  | .div => some "/" | .floorDiv => some "//" | .mod => some "%" | .pow => some "**"
  | .lShift => some "<<" | .rShift => some ">>" | .bitAnd => some "&" | .bitXor => some "^"
  | .bitOr => some "|" | .lt => some "<" | .ltE => some "<=" | .gt => some ">" | .gtE => some ">="
  | .eq => some "==" | .notEq => some "!="
  | .other _ => none

/-- the operator of a name, if it can be written -/
def ofName? (name : String) : Option Operator := all.find? (·.name == name)

/-- the constant that stands for an operator: words in capitals, joined by underscores -/
def constant (op : Operator) : String :=
  String.ofList <| match op.name.toList with
    | [] => []
    | c :: cs => c.toUpper :: cs.flatMap fun c => if c.isUpper then ['_', c] else [c.toUpper]

end Operator

end Reflow
