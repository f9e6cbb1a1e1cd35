import Reflow.Doc.Basic
import Reflow.Text.Quoted

/-!
# Documents as text

`Doc.dump` writes a document in the notation of the builders: texts in quotes, the parts of a
concatenation between brackets, and the other fragments by name.  A hard line break followed by
`breakParent`, alone in a concatenation, is written `hardline`.  What stands for itself in a text
between quotes is told by `printable`.
-/

namespace Reflow.Doc

mutual
/-- the characters of a document in builder notation -/
def dumpChars (printable : Char → Bool) : Doc → List Char
  | .text s => Text.quotedChars s.toList printable
  | .concat [.linebreak _ true, .breakParent] => "hardline".toList
  | .concat parts => '[' :: (dumpParts printable parts ++ [']'])
  | .group contents shouldBreak =>
    "group(".toList ++ contents.dumpChars printable ++
      (if shouldBreak then ", should_break=True)".toList else [')'])
  | .indent contents => "indent(".toList ++ contents.dumpChars printable ++ [')']
  | .ifBreak broken flat =>
    "if_break(".toList ++ broken.dumpChars printable ++ ", ".toList ++ flat.dumpChars printable ++
      [')']
  | .breakParent => "break_parent".toList
  | .linebreak soft hard =>
    if hard then "hardline_without_break_parent".toList
    else if soft then "softline".toList
    else "line".toList
/-- the parts of a concatenation, separated by commas -/
def dumpParts (printable : Char → Bool) : List Doc → List Char
  | [] => []
  | [d] => d.dumpChars printable
  | d :: ds => d.dumpChars printable ++ ", ".toList ++ dumpParts printable ds
end

/-- a document in builder notation -/
def dump (d : Doc) (printable : Char → Bool := Text.isPrintable) : String :=
  String.ofList (d.dumpChars printable)

end Reflow.Doc
