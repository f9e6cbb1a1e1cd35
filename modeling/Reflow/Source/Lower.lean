import Reflow.Node.Basic
import Reflow.Source.Tree
import Reflow.Text.Lines

/-!
# From source trees to printed trees

A position becomes an offset: the byte at which its line starts plus its column, so that offsets
follow the order of the source over several lines.  A construct that cannot be printed becomes an
`unsupported` node, which keeps its name and, where only a part of it is at fault, what that is.
The notes of a tree are left behind.

* `Position.offset`   the offset of a position, given where the lines start;
* `Tree.lower`        the printed tree of a statement or an expression;
* `Module.lower`      the printed tree of a whole source text.
-/

namespace Reflow.Source

/-- the offset of a position; a position without a line of the text keeps its column -/
def Position.offset (starts : List Int) (p : Position) : Int :=
  match p.line? with
  | none => p.column
  | some line =>
    if 0 < line then (starts[(line - 1).toNat]?).elim p.column (· + p.column) else p.column

namespace Constant

/-- the printed node of a constant -/
def lower (offset : Int) : Constant → Node
  | .nothing => .constant offset none
  | .bool b => .constant offset (some b)
  | .text s => .string offset s
  | .number n => .number offset n
  | .other typeName => .unsupported offset "Constant" (some typeName)

end Constant

/-- the printed node of an operator, which has no position -/
def lowerOperator (name : String) : Node :=
  match Operator.ofName? name with
  | some op => .operator 0 op
  | none => .unsupported 0 name none

def Parameter.lower (starts : List Int) (p : Parameter) : Node :=
  .parameter (p.pos.offset starts) p.name

mutual
/-- the printed tree of a statement or an expression -/
def Tree.lower (starts : List Int) : Tree → Node
  | .function pos name decorated generic returns params body _ =>
    let refuse (detail : String) : Node :=
      .unsupported (pos.offset starts) "FunctionDef" (some detail)
    if decorated then refuse "decorators"
    else if generic then refuse "type parameters"
    else if returns then refuse "return annotation"
    else if params.annotated then refuse "parameter annotations"
    else .function (pos.offset starts) name (params.lower starts) (lowerAll starts body)
  | .classDef pos name decorated keyworded generic bases body =>
    let refuse (detail : String) : Node :=
      .unsupported (pos.offset starts) "ClassDef" (some detail)
    if decorated then refuse "decorators"
    else if keyworded then refuse "class keywords"
    else if generic then refuse "type parameters"
    else .classDef (pos.offset starts) name (lowerAll starts bases) (lowerAll starts body)
  | .expression pos value => .expression (pos.offset starts) (value.lower starts)
  | .call pos callee args keywords =>
    .call (pos.offset starts) (callee.lower starts) (lowerAll starts args)
      (lowerKeywords starts keywords)
  | .constant pos value _ => value.lower (pos.offset starts)
  | .ident pos id _ => .ident (pos.offset starts) id
  | .forLoop pos target iter body orElse _ =>
    .forLoop (pos.offset starts) (target.lower starts) (iter.lower starts) (lowerAll starts body)
      (lowerAll starts orElse)
  | .tuple pos elts _ => .tuple (pos.offset starts) (lowerAll starts elts)
  | .list pos elts _ => .list (pos.offset starts) (lowerAll starts elts)
  | .assign pos targets value _ =>
    .assign (pos.offset starts) (lowerAll starts targets) (value.lower starts)
  | .augAssign pos target op value =>
    .augAssign (pos.offset starts) (target.lower starts) (lowerOperator op) (value.lower starts)
  | .dict pos keys values =>
    if keys.any (·.isNone) then
      .unsupported (pos.offset starts) "Dict" (some "dictionary unpacking")
    else .dict (pos.offset starts) (lowerPresent starts keys) (lowerAll starts values)
  | .access pos value attr _ => .access (pos.offset starts) (value.lower starts) attr
  | .compare pos left ops comparators =>
    .compare (pos.offset starts) (left.lower starts) (ops.map lowerOperator)
      (lowerAll starts comparators)
  | .other pos kind => .unsupported (pos.offset starts) kind none
def lowerAll (starts : List Int) : List Tree → List Node
  | [] => []
  | t :: ts => t.lower starts :: lowerAll starts ts
/-- the printed trees of those that are present -/
def lowerPresent (starts : List Int) : List (Option Tree) → List Node
  | [] => []
  | none :: ts => lowerPresent starts ts
  | some t :: ts => t.lower starts :: lowerPresent starts ts
def lowerKeywords (starts : List Int) : List Keyword → List Node
  | [] => []
  | .mk pos name value :: ks =>
    .keyword (pos.offset starts) name (value.lower starts) :: lowerKeywords starts ks
def Parameters.lower (starts : List Int) : Parameters → Node
  | .mk posOnly params vararg kwOnly kwDefaults kwarg defaults =>
    .parameters 0 (posOnly.map (Parameter.lower starts)) (params.map (Parameter.lower starts))
      (lowerAll starts defaults) (vararg.elim .nothing (Parameter.lower starts))
      (kwOnly.map (Parameter.lower starts)) (lowerPresent starts kwDefaults)
      (kwarg.elim .nothing (Parameter.lower starts))
end

/-- the printed tree of the statements of a text -/
def Module.lower (m : Module) (text : String) : Node :=
  .module 0 (lowerAll ((Text.lineStarts text.toList).map Int.ofNat) m.body)

end Reflow.Source
