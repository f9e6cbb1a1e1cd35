/-!
# Documents

A document is text together with the places where a line may end.  It says nothing about where
lines do end: that is decided by the layout engine (`Reflow.Doc.Layout`) for a given page width.

* `Doc`            the seven kinds of fragment;
* `Doc.line`       a space when its group is flat, a new line when it is broken;
* `Doc.softline`   nothing when flat, a new line when broken;
* `Doc.hardline`   always a new line, and every group around it is broken;
* `Doc.join`       parts with a separator between them;
* `Doc.weight`     the number of fragments, the measure by which walks over documents end.
-/

namespace Reflow

/-- a text with possible line breaks -/
inductive Doc where
  /-- printed as it stands -/
  | text (s : String)
  /-- the parts one after the other -/
  | concat (parts : List Doc)
  /-- laid out flat if that fits, unless it is marked as broken -/
  | group (contents : Doc) (shouldBreak : Bool)
  /-- every line break inside is indented one level deeper -/
  | indent (contents : Doc)
  /-- one of two documents, by the mode of the group around it -/
  | ifBreak (broken flat : Doc)
  /-- prints nothing and breaks every group around it -/
  | breakParent
  /-- a possible line break: a soft one prints nothing when flat, a hard one is never flat -/
  | linebreak (soft hard : Bool)
  deriving Inhabited, BEq, Repr

namespace Doc

def line : Doc := .linebreak false false
def softline : Doc := .linebreak true false
def hardline : Doc := .concat [.linebreak false true, .breakParent]

/-- the parts with `separator` between each two neighbours -/
def join (separator : Doc) (parts : List Doc) : Doc := .concat (parts.intersperse separator)

mutual
/-- the number of fragments of a document -/
def weight : Doc → Nat
  | .text _ | .breakParent | .linebreak _ _ => 1
  | .concat parts => 1 + weightAll parts
  | .group contents _ | .indent contents => 1 + contents.weight
  | .ifBreak broken flat => 1 + broken.weight + flat.weight
/-- the number of fragments of a list of documents -/
def weightAll : List Doc → Nat
  | [] => 0
  | d :: ds => d.weight + weightAll ds
end

theorem weight_pos (d : Doc) : 0 < d.weight := by
  cases d <;> simp only [weight] <;> omega

theorem weightAll_append (ds es : List Doc) :
    weightAll (ds ++ es) = weightAll ds + weightAll es := by
  induction ds with
  | nil => simp [weightAll]
  | cons d ds ih => simp [weightAll, ih, Nat.add_assoc]

end Doc

end Reflow
