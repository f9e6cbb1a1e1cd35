import Reflow.Diagnostic
import Reflow.Source.Grammar
import Reflow.Source.Lower

/-!
# Parsed text

A source text together with what came of reading it: its statements, or diagnostics that say why
there are none.  The tree to print is made from the statements when it is first asked for, and kept.

* `Parsed.ofText`       reads a text;
* `Parsed.tree?`        the tree to print, if there are statements;
* `Parsed.keepTree`     the same text with its tree kept;
* `Parsed.fresh`        the same text with no tree kept.
-/

namespace Reflow

/-- the diagnostic for a text that cannot be read -/
def Source.Refusal.diagnostic : Source.Refusal → Diagnostic
  | .nullCharacter message => Diagnostic.nullSpec.diagnostic 1 0 (some message)
  | .ungrammatical message line? offset? => Diagnostic.ofSyntax message line? offset?

/-- a source text and what came of reading it -/
structure Parsed where
  text : String
  module? : Option Source.Module
  diagnostics : List Diagnostic := []
  /-- the tree to print, if it was asked for before -/
  kept? : Option Node := none

namespace Parsed

/-- reads a text by a grammar -/
def ofText (g : Source.Grammar) (text : String) (o : ParseOptions := {}) : Parsed :=
  match g text o with
  | .ok m => { text, module? := some m }
  | .error e => { text, module? := none, diagnostics := [e.diagnostic] }

def hasErrors (p : Parsed) : Bool := Diagnostic.hasErrors p.diagnostics

/-- the tree to print, if there are statements -/
def tree? (p : Parsed) : Option Node :=
  match p.kept? with
  | some n => some n
  | none => p.module?.map (·.lower p.text)

/-- the same text with its tree kept -/
def keepTree (p : Parsed) : Parsed := { p with kept? := p.tree? }

/-- the same text with no tree kept -/
def fresh (p : Parsed) : Parsed := { p with kept? := none }

end Parsed

end Reflow
