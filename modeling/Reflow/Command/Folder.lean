import Reflow.Command.Host

/-!
# A folder in memory

A folder with files and folders inside, and a clock of which the readings are given.  A file name
that does not start at the root starts at the folder.  A name may lead outside, where nothing is
known but that there are folders on the way up to the root.

* `Folder`            the entries by the names that lead to them;
* `Folder.resolve`    the entry that a file name leads to;
* `Machine.host`      the folder and the clock as something commands can work on;
* `Folder.changes`    the files that differ from those of another folder.
-/

namespace Reflow

/-- the entries of a folder and of the folders inside it: files with their bytes, and folders.  A
folder with something inside needs no entry of its own. -/
structure Folder where
  entries : List (List String × Option (List UInt8)) := []
  deriving Inhabited

namespace Folder

/-- the bytes of the file at a place, if there is one -/
def file? (d : Folder) (p : List String) : Option (List UInt8) := (d.entries.lookup p).join

/-- whether a place is the folder itself or one that it is in -/
def isAbove (p : List String) : Bool := p.all (· == "..")

def isFolder (d : Folder) (p : List String) : Bool :=
  isAbove p || d.entries.any fun (q, content?) =>
    p.isPrefixOf q && (q.length != p.length || content?.isNone)

/-- the place one part further on -/
def next (p : List String) (part : String) : List String :=
  if part == ".." && !isAbove p then p.dropLast else p ++ [part]

/-- the place that further parts lead to from a place -/
def walk (d : Folder) (p : List String) : List String → Except FileFault (List String)
  | [] => .ok p
  | part :: parts =>
    if d.isFolder p then d.walk (next p part) parts
    else .error (if (d.file? p).isSome then .notFolder else .notFound)

/-- the place that a file name leads to -/
def resolve (d : Folder) (f : FileName) : Except FileFault (List String) :=
  d.walk (if f.root.isEmpty then [] else [".."]) f.parts

def read (d : Folder) (f : FileName) : Except FileFault (List UInt8) := do
  let p ← d.resolve f
  if d.isFolder p then throw .isFolder
  match d.file? p with
  | some bytes => return bytes
  | none => throw .notFound

/-- the folder with a file at a place, instead of what was there -/
def put (d : Folder) (p : List String) (bytes : List UInt8) : Folder :=
  ⟨d.entries.filter (·.1 != p) ++ [(p, some bytes)]⟩

def write (d : Folder) (f : FileName) (bytes : List UInt8) : Except FileFault Folder := do
  let p ← d.resolve f
  if d.isFolder p then throw .isFolder
  return d.put p bytes

def makeFolder (d : Folder) (f : FileName) : Except FileFault Folder := do
  let p ← d.resolve f
  if d.isFolder p || (d.file? p).isSome then throw .exists
  return ⟨d.entries ++ [(p, none)]⟩

/-- the files inside the folder of a name -/
def filesBelow (d : Folder) (f : FileName) : List (List String) :=
  match d.resolve f with
  | .error _ => []
  | .ok p => d.entries.filterMap fun (q, content?) =>
    if p.isPrefixOf q && content?.isSome then some (q.drop p.length) else none

/-- the files inside a folder that another one does not have, or has with other bytes -/
def changes (d old : Folder) : List (List String × List UInt8) :=
  d.entries.filterMap fun (p, content?) =>
    content?.bind fun bytes =>
      if p.head? = some ".." || old.file? p = some bytes then none else some (p, bytes)

end Folder

/-- a folder, and a clock with its readings -/
structure Machine where
  folder : Folder
  readings : List Binary64 := []
  /-- how often the clock was read -/
  reads : Nat := 0

namespace Machine

/-- the reading of a clock that stops at its last one -/
def reading (s : Machine) : Binary64 :=
  (s.readings[s.reads]?).getD (s.readings.getLast?.getD (.zero false))

/-- changes the folder, unless there is a fault -/
def update (act : Folder → Except FileFault Folder) : StateM Machine (Except FileFault Unit) :=
  fun s =>
    match act s.folder with
    | .ok d => (.ok (), { s with folder := d })
    | .error fault => (.error fault, s)

/-- the folder and the clock as something commands can work on -/
def host : Host (StateM Machine) where
  read f := fun s => (s.folder.read f, s)
  write f s := update (·.write f (Text.encode s))
  makeFolder f := update (·.makeFolder f)
  isFolder f := fun s =>
    ((match s.folder.resolve f with
      | .ok p => s.folder.isFolder p
      | .error _ => false), s)
  filesBelow f := fun s => (s.folder.filesBelow f, s)
  now := fun s => (s.reading, { s with reads := s.reads + 1 })

end Machine

end Reflow
