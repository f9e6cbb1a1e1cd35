import Reflow.Command.FileName
import Reflow.Format
import Reflow.Number.Binary64
import Reflow.Text.Lines
import Reflow.Text.Utf8

/-!
# What commands work on

A command reads and writes files and looks at a clock, each through a `Host`, which may be the
machine or a folder that is held in memory (`Reflow.Command.Folder`).  It ends with an `Outcome`, or
with an error that nothing in it deals with.
-/

namespace Reflow

/-- what a command can do outside itself -/
structure Host (m : Type → Type) where
  read : FileName → m (Except FileFault (List UInt8))
  write : FileName → String → m (Except FileFault Unit)
  /-- makes one folder in a folder that is there -/
  makeFolder : FileName → m (Except FileFault Unit)
  isFolder : FileName → m Bool
  /-- the files in a folder and in the folders inside it, each by the names that lead to it -/
  filesBelow : FileName → m (List (List String))
  /-- the seconds since some moment -/
  now : m Binary64

/-- how a command ends: its status, and what it prints -/
structure Outcome where
  status : Nat
  output : String := ""
  errors : String := ""
  deriving DecidableEq, Inhabited, Repr

/-- an error that a command does not deal with -/
inductive CommandError where
  | file (e : FileError)
  | decode (e : Text.DecodeError)
  | format (e : FormatError)
  | divisionByZero
  deriving DecidableEq, Repr

namespace CommandError

def message : CommandError → String
  | .file e => e.message
  | .decode e => e.message
  | .format e => e.message
  | .divisionByZero => "float division by zero"

end CommandError

/-- what a command does -/
abbrev Action (m : Type → Type) (α : Type) := ExceptT CommandError m α

namespace Host

variable {m : Type → Type} [Monad m] (host : Host m)

/-- ends with an error about a file -/
def failing {α : Type} (f : FileName) (fault : FileFault) : Action m α := throw (.file ⟨fault, f⟩)

/-- what comes of doing something with a file -/
def attempt {α : Type} (f : FileName) (act : m (Except FileFault α)) : Action m α := do
  match ← (act : m (Except FileFault α)) with
  | .ok a => return a
  | .error fault => failing f fault

/-- the text of a file, with line feeds for whatever ends its lines -/
def readText (f : FileName) : Action m String := do
  match Text.decode (← attempt f (host.read f)) with
  | .ok cs => return String.ofList (Text.lineFeeds cs)
  | .error e => throw (.decode e)

/-- makes one folder unless it is there, or goes on with `missing` if the folder it is in is not -/
def makeFolderOr (missing : Action m Unit) (f : FileName) : Action m Unit := do
  match ← (host.makeFolder f : m (Except FileFault Unit)) with
  | .ok _ => return ()
  | .error .notFound => missing
  | .error fault => if !(← (host.isFolder f : m Bool)) then failing f fault

/-- makes the folder of the first `n` parts of a name, with the folders it is in, unless it is there
-/
def makeFoldersUpTo (f : FileName) : Nat → Action m Unit
  | 0 =>
    let g := { f with parts := [] }
    host.makeFolderOr (failing g .notFound) g
  | n + 1 =>
    let g := { f with parts := f.parts.take (n + 1) }
    host.makeFolderOr (do
      makeFoldersUpTo f n
      host.makeFolderOr (failing g .notFound) g) g

/-- makes a folder, with the folders it is in, unless it is there -/
def makeFolders (f : FileName) : Action m Unit := host.makeFoldersUpTo f f.parts.length

end Host

end Reflow
