import Reflow.Text.Quoted

/-!
# File names

A file name is a list of parts, each of which leads one step down, or up if it is `..`.  Empty parts
and single dots are dropped when a name is read; a name without parts is the current folder.
-/

namespace Reflow

/-- a file name: what it starts with, if it does not start at the current folder, and its parts -/
structure FileName where
  root : String := ""
  parts : List String
  deriving DecidableEq, Inhabited, Repr

namespace FileName

/-- the parts of a text between slashes -/
def splitSlashes : List Char → List (List Char)
  | [] => [[]]
  | c :: cs =>
    if c == '/' then [] :: splitSlashes cs
    else match splitSlashes cs with
      | [] => [[c]]
      | p :: ps => (c :: p) :: ps

/-- the start of a name: exactly two slashes differ from one, but more do not -/
def rootOf : List Char → String
  | '/' :: '/' :: '/' :: _ => "/"
  | '/' :: '/' :: _ => "//"
  | '/' :: _ => "/"
  | _ => ""

def ofText (s : String) : FileName where
  root := rootOf s.toList
  parts := ((splitSlashes s.toList).map String.ofList).filter fun p => p != "" && p != "."

def text (f : FileName) : String :=
  if f.root.isEmpty && f.parts.isEmpty then "." else f.root ++ "/".intercalate f.parts

/-- the folder that a name is in, which for a name without parts is that name -/
def parent (f : FileName) : FileName := { f with parts := f.parts.dropLast }

/-- the names below a folder -/
def below (f : FileName) (names : List String) : FileName := { f with parts := f.parts ++ names }

end FileName

/-- why a file cannot be read or written -/
inductive FileFault where
  | notFound
  | exists
  | notFolder
  | isFolder
  deriving DecidableEq, Repr

namespace FileFault

def message : FileFault → String
  | .notFound => "[Errno 2] No such file or directory"
  | .exists => "[Errno 17] File exists"
  | .notFolder => "[Errno 20] Not a directory"
  | .isFolder => "[Errno 21] Is a directory"

end FileFault

/-- a fault with the name of the file -/
structure FileError where
  fault : FileFault
  file : FileName
  deriving DecidableEq, Repr

def FileError.message (e : FileError) : String :=
  e.fault.message ++ ": " ++ Text.quoted e.file.text

end Reflow
