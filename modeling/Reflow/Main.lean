import Reflow.Command.Dump
import Reflow.Command.Timing
import Reflow.Source.Read

/-!
# The program

The commands `dump` and `time` on the machine.  The first argument says which one is meant, and the
others are its arguments.
-/

namespace Reflow.Main

/-- the fault that an error of the machine stands for; any other error counts as a file that is not
there -/
def faultOf : IO.Error → FileFault
  | .alreadyExists .. => .exists
  | .inappropriateType .. => .notFolder
  | _ => .notFound

/-- what comes of doing something on the machine -/
def attempt {α : Type} (act : IO α) : IO (Except FileFault α) := do
  try
    return .ok (← act)
  catch e => return .error (faultOf e)

/-- what comes of doing something on the machine, or `otherwise` if there is an error -/
def attemptOr {α : Type} (otherwise : α) (act : IO α) : IO α := do
  try act catch _ => return otherwise

def isFolder (f : FileName) : IO Bool :=
  attemptOr false do (← IO.FS.realPath f.text).isDir

/-- the files in a folder and in the folders inside it -/
def filesBelow (f : FileName) : IO (List (List String)) :=
  attemptOr [] do
    let root ← IO.FS.realPath f.text
    let found ← root.walkDir
    let files ← found.toList.filterM fun p => return !(← p.isDir)
    return files.map fun p => p.components.drop root.components.length

/-- the machine as something commands can work on -/
def machine : Host IO where
  read f := do
    if ← isFolder f then return .error .isFolder
    attempt do return (← IO.FS.readBinFile f.text).toList
  write f s := do
    if ← isFolder f then return .error .isFolder
    attempt (IO.FS.writeFile f.text s)
  makeFolder f := do
    if ← isFolder f then return .error .exists
    attempt (IO.FS.createDir f.text)
  isFolder := isFolder
  filesBelow := filesBelow
  now := do return Binary64.ofRat ((← IO.monoNanosNow : Nat) / 1000000000)

/-- does what a command does, and prints what it prints -/
def finish (act : Action IO Outcome) : IO UInt32 := do
  match ← act.run with
  | .ok outcome =>
    IO.print outcome.output
    IO.eprint outcome.errors
    return outcome.status.toUInt32
  | .error e =>
    IO.eprintln e.message
    return 1

end Reflow.Main

open Reflow in
def main (args : List String) : IO UInt32 :=
  match args with
  | "dump" :: args => Main.finish (Dump.command Main.machine Source.grammar args)
  | "time" :: args => Main.finish (Timing.command Main.machine Source.grammar args)
  | _ => do
    IO.eprintln "usage: reflow (dump | time) ARGUMENTS"
    return 2
