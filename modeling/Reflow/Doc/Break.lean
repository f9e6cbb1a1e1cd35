import Reflow.Doc.Basic

/-!
# Forced breaks

A hard line break and a `breakParent` cannot be laid out flat, so every group that holds one, at
any depth, has to be broken.

* `Doc.propagate`        one walk that marks those groups and says whether it met a forced break;
* `Doc.propagateBreaks`  the marked document.
-/

namespace Reflow.Doc

mutual
/-- the document with its groups marked, and whether it forces the groups around it to break -/
def propagate : Doc → Doc × Bool
  | .text s => (.text s, false)
  | .breakParent => (.breakParent, true)
  | .linebreak soft hard => (.linebreak soft hard, hard)
  | .concat parts => let (parts, forced) := propagateAll parts; (.concat parts, forced)
  | .indent contents => let (contents, forced) := contents.propagate; (.indent contents, forced)
  | .group contents shouldBreak =>
    let (contents, forced) := contents.propagate
    (.group contents (shouldBreak || forced), shouldBreak || forced)
  | .ifBreak broken flat =>
    let (broken, forcedBroken) := broken.propagate
    let (flat, forcedFlat) := flat.propagate
    (.ifBreak broken flat, forcedBroken || forcedFlat)
/-- `propagate` on each part: the list forces a break if one of its parts does -/
def propagateAll : List Doc → List Doc × Bool
  | [] => ([], false)
  | d :: ds =>
    let (d, forced) := d.propagate
    let (ds, forcedRest) := propagateAll ds
    (d :: ds, forced || forcedRest)
end

/-- the document in which every group around a forced break is marked as broken -/
def propagateBreaks (d : Doc) : Doc := d.propagate.1

end Reflow.Doc
