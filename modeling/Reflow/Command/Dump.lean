import Reflow.Command.Arguments
import Reflow.Command.Host
import Reflow.Doc.Dump
import Reflow.Node.Shown

/-!
# Showing what formatting does

The command `dump` shows the tree of a source text, the document it is printed as, and the text that
is laid out, on standard output or in a file.

* `Dump.interface`   the arguments;
* `Dump.sections`    what is shown;
* `Dump.command`     the command.
-/

namespace Reflow.Dump

def usage : String := "usage: dump_doc.py [-h] [--width WIDTH] [--out OUT] path\n"

def help : String :=
  usage ++
  "\n" ++
  "Dump AST/doc/output for one Python file\n" ++
  "\n" ++
  "positional arguments:\n" ++
  "  path           Python source file to dump\n" ++
  "\n" ++
  "options:\n" ++
  "  -h, --help     show this help message and exit\n" ++
  "  --width WIDTH  Print width (default: 80)\n" ++
  "  --out OUT      Write the dump here instead of stdout\n"

def interface : Interface where
  program := "dump_doc.py"
  usage := usage
  help := help
  positional := "path"
  options := [⟨["-h", "--help"], .help⟩, ⟨["--width"], .integer⟩, ⟨["--out"], .text⟩]

/-- the width of the page that trees are shown on -/
def treeWidth : Nat := 80

/-- the tree, the document and the text, each under a heading -/
def sections (tree : Node) (d : Doc) (text : String) : String :=
  "\n".intercalate ["===== AST =====", tree.shown.onPage treeWidth, "===== DOC =====", d.dump,
    "===== OUTPUT =====", text]

/-- a line for a diagnostic -/
def diagnosticLine (f : FileName) (d : Diagnostic) : String :=
  f.text ++ ":" ++ toString d.line ++ ":" ++ toString d.column ++ ": " ++ d.code ++ " " ++
    d.message ++ "\n"

variable {m : Type → Type} [Monad m] (host : Host m) (g : Source.Grammar)

/-- shows what formatting the text of a file on a page of the given width does -/
def run (f : FileName) (width : Int) (out? : Option FileName) : Action m Outcome := do
  let text ← host.readText f
  let p := Parsed.ofText g text
  if p.hasErrors then
    return { status := 1, output := String.join (p.diagnostics.map (diagnosticLine f)) }
  let tree ← liftFormat p.tree
  let d ← liftFormat (tree.print.mapError .print)
  let options ← liftFormat
    ((OptionsRequest.widths (some width) none none).resolve.mapError .options)
  let shown := sections tree d (d.render options)
  match out? with
  | none => return { status := 0, output := shown ++ "\n" }
  | some out =>
    host.makeFolders out.parent
    Host.attempt out (host.write out shown)
    return { status := 0, output := "Wrote dump for " ++ f.text ++ " to " ++ out.text ++ "\n" }
where
  /-- an error in formatting, as one of the command -/
  liftFormat {α : Type} (r : Except FormatError α) : Action m α :=
    match r with
    | .ok a => pure a
    | .error e => throw (.format e)

/-- the command with its arguments -/
def command (args : List String) : Action m Outcome :=
  match interface.parse args with
  | .help => return { status := 0, output := interface.help }
  | .refused message => return { status := 2, errors := interface.refusalText message }
  | .run path values =>
    run host g (FileName.ofText path) (Request.integer values "--width" 80)
      ((Request.text? values "--out").map FileName.ofText)

end Reflow.Dump
