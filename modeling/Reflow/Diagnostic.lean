/-!
# Diagnostics

A diagnostic is a message about a place in a source text.  A `Spec` holds what all diagnostics of
one code have in common; two specs are built in, both for texts that do not parse.
-/

namespace Reflow

/-- a message about a place in a source text; the severity `error` stops formatting -/
structure Diagnostic where
  code : String
  message : String
  line : Int
  column : Int
  severity : String := "error"
  hint : Option String := none
  category : Option String := none
  deriving DecidableEq, Inhabited, Repr

namespace Diagnostic

/-- what the diagnostics of one code have in common -/
structure Spec where
  code : String
  message : String
  hint : Option String := none
  severity : String := "error"
  category : Option String := none
  deriving DecidableEq, Inhabited, Repr

/-- the diagnostic of a text that breaks the grammar -/
def syntaxSpec : Spec where
  code := "PARSER_SYNTAX_ERROR"
  message := "Invalid Python syntax"
  hint := some "Fix the syntax error before formatting; the source is left untouched."
  category := some "parser"

/-- the diagnostic of a text that holds a null character -/
def nullSpec : Spec where
  code := "PARSER_NULL_BYTES"
  message := "Source contains null bytes"
  category := some "parser"

/-- the built-in specs -/
def specs : List Spec := [syntaxSpec, nullSpec]

/-- a diagnostic at a place, with the message of the spec unless another one is given -/
def Spec.diagnostic (spec : Spec) (line column : Int) (message? : Option String := none) :
    Diagnostic :=
  { code := spec.code, message := message?.getD spec.message, line, column
    severity := spec.severity, hint := spec.hint, category := spec.category }

/-- the diagnostic for a break of the grammar at a line and an offset, which is counted from one;
an offset that is not known is taken to be the start of the line -/
def ofSyntax (message : String) (line? offset? : Option Int) : Diagnostic :=
  let column := match offset? with
    | some offset => if offset = 0 then 0 else offset - 1
    | none => 0
  syntaxSpec.diagnostic (line?.getD 1) column (syntaxSpec.message ++ ": " ++ message)

def isError (d : Diagnostic) : Bool := d.severity == "error"

/-- whether some diagnostic is an error -/
def hasErrors (ds : List Diagnostic) : Bool := ds.any isError

end Diagnostic

end Reflow
