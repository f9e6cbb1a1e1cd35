import Reflow.Text.Blank
import Reflow.Text.Quoted

/-!
# Values shown as text

A value is shown on one line (`Shown.flat`), or, where the page is too narrow for that, with the
fields of a record and the items of a tuple below each other (`Shown.wrapped`).  A long text is then
shown in several pieces.

* `Shown`          what is shown: a word, a text, a tuple, or a record with named fields;
* `Shown.flat`     the value on one line;
* `pieces`         a text in pieces that fit on the page;
* `Shown.wrapped`  the value on a page.
-/

namespace Reflow

mutual
/-- a value that is to be shown -/
inductive Shown where
  /-- shown as it stands -/
  | word (s : String)
  /-- shown in quotes -/
  | text (s : String)
  | tuple (items : List Shown)
  | record (name : String) (fields : List ShownField)
/-- a field of a record -/
inductive ShownField where
  | mk (name : String) (value : Shown)
end

instance : Inhabited Shown := ⟨.word ""⟩

namespace Shown

/-- what closes a tuple: a single item keeps its comma -/
def tupleEnd (items : List Shown) : String := if items.length = 1 then ",)" else ")"

mutual
/-- the value on one line -/
def flat : Shown → String
  | .word s => s
  | .text s => Text.quoted s
  | .tuple items => "(" ++ ", ".intercalate (flatAll items) ++ tupleEnd items
  | .record name fields => name ++ "(" ++ ", ".intercalate (flatFields fields) ++ ")"
def flatAll : List Shown → List String
  | [] => []
  | v :: vs => v.flat :: flatAll vs
def flatFields : List ShownField → List String
  | [] => []
  | .mk name value :: fields => (name ++ "=" ++ value.flat) :: flatFields fields
end

/-- a new line with the given indentation -/
def newLine (indent : Nat) : String := String.ofList ('\n' :: List.replicate indent ' ')

/-- words gathered from left to right for as long as `fits` says so; its first argument says whether
the words are the last ones -/
def gather (fits : Bool → List Char → Bool) (current : List Char) :
    List (List Char) → List (List Char)
  | [] => if current.isEmpty then [] else [current]
  | w :: ws =>
    if fits ws.isEmpty (current ++ w) then gather fits (current ++ w) ws
    else (if current.isEmpty then [] else [current]) ++ gather fits w ws

/-- the pieces of the lines of a text, each a line or, where that is too long, some words of it -/
def piecesOf (width indent allowance : Nat) : List (List Char) → List (List Char)
  | [] => []
  | l :: ls =>
    let fits (isLast : Bool) (cs : List Char) : Bool :=
      let after := if isLast && ls.isEmpty then allowance else 0
      indent + (Text.quotedChars cs).length + after ≤ width
    (if fits true l then [l] else gather fits [] (Text.words l)) ++
      piecesOf width indent allowance ls

/-- a text in quotes, in pieces below each other that leave `allowance` columns after the last one
-/
def pieces (width indent allowance : Nat) (s : String) : String :=
  (newLine indent).intercalate
    ((piecesOf width indent allowance (Text.boundedLines s.toList)).map fun cs =>
      String.ofList (Text.quotedChars cs))

mutual
/-- the value from the column `indent` on, with `allowance` columns left after it -/
def wrapped (width : Nat) (v : Shown) (indent allowance : Nat) : String :=
  if indent + v.flat.length + allowance ≤ width then v.flat
  else match v with
    | .word s => s
    | .text s => if s.isEmpty then Text.quoted s else pieces width indent allowance s
    | .tuple items =>
      "(" ++ wrappedAll width items (indent + 1) (allowance + (tupleEnd items).length) ++
        tupleEnd items
    | .record name fields =>
      name ++ "(" ++ wrappedFields width fields (indent + name.length + 1) allowance ++ ")"
/-- items below each other; the last one leaves `allowance` columns, the others one for the comma -/
def wrappedAll (width : Nat) (vs : List Shown) (indent allowance : Nat) : String :=
  match vs with
  | [] => ""
  | v :: vs =>
    if vs.isEmpty then v.wrapped width indent allowance
    else v.wrapped width indent 1 ++ "," ++ newLine indent ++ wrappedAll width vs indent allowance
/-- fields below each other, as `wrappedAll` does it for items -/
def wrappedFields (width : Nat) (fields : List ShownField) (indent allowance : Nat) : String :=
  match fields with
  | [] => ""
  | .mk name value :: fields =>
    let column := indent + name.length + 1
    name ++ "=" ++
      if fields.isEmpty then value.wrapped width column allowance
      else value.wrapped width column 1 ++ "," ++ newLine indent ++
        wrappedFields width fields indent allowance
end

/-- the value on a page -/
def onPage (width : Nat) (v : Shown) : String := v.wrapped width 0 0

end Shown

end Reflow
