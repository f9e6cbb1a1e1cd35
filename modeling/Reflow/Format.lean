import Reflow.Doc.Layout
import Reflow.Parsed
import Reflow.Print.Path

/-!
# Formatting

A text is read, its tree printed, and the document laid out.  A text with errors stays as it is; its
diagnostics are part of the result.

* `Formatted`       what formatting gives;
* `FormatError`     why it gives nothing;
* `Parsed.format`   formats a text that was read before;
* `Format.run`      formats a text as it was asked for;
* `Format.text`     the formatted text alone, where an error in the text counts as failure.
-/

namespace Reflow

/-- what formatting gives -/
structure Formatted where
  text : String
  /-- whether the text differs from the source text -/
  changed : Bool
  diagnostics : List Diagnostic
  deriving DecidableEq, Inhabited, Repr

namespace Formatted

def hasErrors (f : Formatted) : Bool := Diagnostic.hasErrors f.diagnostics

end Formatted

/-- why formatting gives nothing -/
inductive FormatError where
  | options (e : OptionsError)
  | version
  /-- a text that was read before cannot be given together with options for reading -/
  | readBefore
  /-- there are no statements, and no error that says why -/
  | notParsed
  /-- something was asked of a text before any was read -/
  | nothingRead (asked : String)
  /-- an error in the text -/
  | source (d : Diagnostic)
  | print (e : PrintError)
  deriving DecidableEq, Repr

namespace FormatError

def message : FormatError → String
  | .options e => e.message
  | .version => ParseRequest.refusal
  | .readBefore => "Pass either parse or parser_options, not both"
  | .notParsed => "Source did not parse; check diagnostics before lowering"
  | .nothingRead asked => (PrintError.noField Value.nothing.typeName asked).message
  | .source d => toString d.line ++ ":" ++ toString d.column ++ ": " ++ d.message
  | .print e => e.message

end FormatError

namespace Parsed

/-- the tree to print -/
def tree (p : Parsed) : Except FormatError Node :=
  match p.tree? with
  | some n => .ok n
  | none => .error .notParsed

/-- what formatting gives for a text that was read before -/
def formatted (p : Parsed) (o : Options) : Except FormatError Formatted :=
  if p.hasErrors then .ok { text := p.text, changed := false, diagnostics := p.diagnostics }
  else do
    let n ← p.tree
    let d ← n.print.mapError .print
    let text := d.render o
    return { text, changed := text != p.text, diagnostics := p.diagnostics }

/-- formats a text that was read before.  If its tree is asked for it is kept, even if it cannot be
printed. -/
def format (p : Parsed) (o : Options) : Parsed × Except FormatError Formatted :=
  (if p.hasErrors then p else p.keepTree, p.formatted o)

end Parsed

namespace Format

/-- the options that are asked for -/
def resolve (options : OptionsRequest) (parse? : Option ParseRequest) :
    Except FormatError (Options × Option ParseOptions) := do
  let o ← options.resolve.mapError .options
  match parse? with
  | none => return (o, none)
  | some r => match r.resolve? with
    | some po => return (o, some po)
    | none => throw .version

/-- formats a text as it was asked for -/
def run (g : Source.Grammar) (text : String) (options : OptionsRequest)
    (parse? : Option ParseRequest) :
    Except FormatError Formatted := do
  let (o, po?) ← resolve options parse?
  (Parsed.ofText g text (po?.getD {})).formatted o

/-- the formatted text; the first diagnostic of a text with errors is the reason of failure -/
def text (g : Source.Grammar) (source : String) (options : OptionsRequest) :
    Except FormatError String := do
  let f ← run g source options none
  match f.hasErrors, f.diagnostics with
  | true, d :: _ => throw (.source d)
  | _, _ => return f.text

end Format

end Reflow
