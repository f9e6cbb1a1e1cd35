import Reflow.Doc.Basic

/-!
# Documents as received

Documents that come from outside may hold, in place of a fragment, something that is none.
`Fragment.toDoc` gives the document, or the first such thing from left to right.
-/

namespace Reflow

/-- a document in which any fragment may be something else -/
inductive Fragment where
  | text (s : String)
  | concat (parts : List Fragment)
  | group (contents : Fragment) (shouldBreak : Bool)
  | indent (contents : Fragment)
  | ifBreak (broken flat : Fragment)
  | breakParent
  | linebreak (soft hard : Bool)
  /-- not a fragment, with the text it is shown as -/
  | invalid (shown : String)
  deriving Inhabited

namespace Fragment

def hardline : Fragment := .concat [.linebreak false true, .breakParent]

/-- the parts with `separator` between each two neighbours -/
def join (separator : Fragment) (parts : List Fragment) : Fragment :=
  .concat (parts.intersperse separator)

mutual
/-- the document, unless something in it is no fragment: then the text that thing is shown as -/
def toDoc : Fragment → Except String Doc
  | .text s => .ok (.text s)
  | .concat parts => do return .concat (← toDocs parts)
  | .group contents shouldBreak => do return .group (← contents.toDoc) shouldBreak
  | .indent contents => do return .indent (← contents.toDoc)
  | .ifBreak broken flat => do
    let broken ← broken.toDoc
    let flat ← flat.toDoc
    return .ifBreak broken flat
  | .breakParent => .ok .breakParent
  | .linebreak soft hard => .ok (.linebreak soft hard)
  | .invalid shown => .error shown
/-- `toDoc` on each part, from left to right -/
def toDocs : List Fragment → Except String (List Doc)
  | [] => .ok []
  | f :: fs => do
    let d ← f.toDoc
    let ds ← toDocs fs
    return d :: ds
end

/-- the message for something that is no fragment -/
def invalidMessage (shown : String) : String := "Unexpected doc fragment: " ++ shown

end Fragment

end Reflow
