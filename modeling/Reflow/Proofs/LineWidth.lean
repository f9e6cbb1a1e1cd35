import Reflow.Proofs.ForcedBreaks

/-!
# The first line of what is to be laid out

The engine looks ahead with a work list and stops as soon as it knows.  What it finds out is also
told by the structure of the documents: how many columns there are up to the first place where a
line ends.

* `Doc.span`, `Command.spans`   these columns, for a document with others after it, and for a stack;
* `fits_eq`                     looking ahead compares them with the room that is left;
* `Doc.groupMode`               whether a group is laid out flat, told by these columns;
* `Page.group_flat_iff_fits`    so a group is broken only if it has to be.
-/

namespace Reflow

namespace Doc

mutual
/-- the columns from the start of a document to the first line end, if there are `after` columns
from the end of the document to the first line end behind it -/
def span : Doc → Mode → Nat → Nat
  | .text s, _, after => s.length + after
  | .concat parts, mode, after => spanAll parts mode after
  | .group contents shouldBreak, mode, after =>
    contents.span (if shouldBreak then .broken else mode) after
  | .indent contents, mode, after => contents.span mode after
  | .ifBreak broken flat, mode, after =>
    mode.choose (broken.span mode after) (flat.span mode after)
  | .breakParent, _, after => after
  | .linebreak soft hard, mode, after =>
    if mode = .broken ∨ hard then 0 else if soft then after else 1 + after
def spanAll : List Doc → Mode → Nat → Nat
  | [], _, after => after
  | d :: ds, mode, after => d.span mode (spanAll ds mode after)
end

theorem spanAll_append (ds es : List Doc) (mode : Mode) (after : Nat) :
    spanAll (ds ++ es) mode after = spanAll ds mode (spanAll es mode after) := by
  induction ds with
  | nil => rfl
  | cons d ds ih => rw [List.cons_append, spanAll, ih, spanAll]

/-- the mode in which the contents of a group are laid out that starts at a column -/
def groupMode (o : Options) (column : Nat) (contents : Doc) (shouldBreak : Bool) (mode : Mode)
    (after : Nat) : Mode :=
  if shouldBreak then .broken
  else if mode = .flat ∨ column + contents.span .flat after ≤ o.printWidth then .flat
  else .broken

theorem groupMode_broken (o : Options) {column after : Nat} {contents : Doc} {shouldBreak : Bool} :
    groupMode o column contents shouldBreak .broken after = .flat ↔
      shouldBreak = false ∧ column + contents.span .flat after ≤ o.printWidth := by
  cases shouldBreak <;> simp [groupMode]

theorem groupMode_unfitted (o : Options) {column after : Nat} {contents : Doc} {shouldBreak : Bool}
    (h : ¬ column + contents.span .flat after ≤ o.printWidth) :
    groupMode o column contents shouldBreak .broken after = .broken := by
  cases shouldBreak <;> simp [groupMode, h]

end Doc

namespace Command

/-- the columns up to the first line end in commands that are taken in their own modes -/
def spans : List Command → Nat
  | [] => 0
  | c :: cs => c.doc.span c.mode (spans cs)

theorem spans_spread (level : Nat) (mode : Mode) (ds : List Doc) (rest : List Command) :
    spans (spread level mode ds ++ rest) = Doc.spanAll ds mode (spans rest) := by
  induction ds with
  | nil => rfl
  | cons d ds ih =>
    show d.span mode (spans (spread level mode ds ++ rest)) = _
    rw [ih, Doc.spanAll]

end Command

open Command

/-- looking ahead, for any stack and any room: there is none, or the first line is within it -/
theorem fits_eq (todo : List Command) (width : Int) :
    fits todo width = decide ((spans todo : Int) ≤ width) := by
  fun_induction fits todo width with
  | case1 todo width hw =>
    symm
    rw [decide_eq_false_iff_not]
    omega
  | case2 width hw =>
    symm
    rw [decide_eq_true_eq]
    simp only [spans]
    omega
  | case3 width hw level mode rest s ih =>
    rw [ih, decide_eq_decide]
    simp only [spans, Doc.span]
    omega
  | case4 width hw level mode rest parts ih =>
    rw [ih, spans_spread]
    rfl
  | case7 width hw level mode rest broken flat ih =>
    rw [ih]
    cases mode <;> rfl
  | case8 width hw level mode rest soft hard hbreak =>
    symm
    rw [decide_eq_true_eq, spans, Doc.span, if_pos hbreak]
    omega
  | case9 width hw level mode rest soft hard hbreak ih =>
    refine ih.trans ?_
    rw [decide_eq_decide, spans, Doc.span, if_neg hbreak]
    cases soft with
    | true => exact Iff.rfl
    | false =>
      show (spans rest : Int) ≤ width - 1 ↔ ((1 + spans rest : Nat) : Int) ≤ width
      omega
  | _ => assumption

namespace Page
variable {o : Options} {d : Doc} {p q : Page} {ls : Lines}

/-- on a page of a run the groups around forced breaks are marked, and no others -/
theorem Reached.shouldBreak_eq (h : Reached o d ls p) {level : Nat} {mode : Mode} {contents : Doc}
    {shouldBreak : Bool} {rest : List Command}
    (htodo : p.todo = ⟨level, mode, .group contents shouldBreak⟩ :: rest) :
    shouldBreak = (Doc.group contents shouldBreak).forced := by
  have hmarked : (Doc.group contents shouldBreak).Marked :=
    h.flatFirst.marked _ (htodo ▸ List.mem_cons_self)
  rw [Doc.forced]
  cases shouldBreak with
  | true => rfl
  | false =>
    cases hforced : contents.forced with
    | false => rfl
    | true => exact hmarked.2 hforced

/-- the step that takes a group, on any page -/
theorem step_group (w : List Char) (c level : Nat) (mode : Mode) (contents : Doc)
    (shouldBreak : Bool) (rest : List Command) :
    step o ⟨w, c, ⟨level, mode, .group contents shouldBreak⟩ :: rest⟩ =
      some ⟨w, c, ⟨level, Doc.groupMode o c contents shouldBreak mode (spans rest), contents⟩ ::
        rest⟩ := by
  have hspans : spans (⟨level, .flat, contents⟩ :: rest) = contents.span .flat (spans rest) := rfl
  cases shouldBreak with
  | true => exact Step.marked.step_eq
  | false =>
    cases mode with
    | flat => exact Step.inherited.step_eq
    | broken =>
      cases hfits : fits (⟨level, .flat, contents⟩ :: rest) ((o.printWidth : Int) - c) with
      | true =>
        rw [(Step.fitted hfits).step_eq]
        rw [fits_eq, decide_eq_true_eq, hspans] at hfits
        rw [(Doc.groupMode_broken o).mpr ⟨rfl, by omega⟩]
      | false =>
        rw [(Step.unfitted hfits).step_eq]
        rw [fits_eq, decide_eq_false_iff_not, hspans] at hfits
        rw [Doc.groupMode, if_neg Bool.false_ne_true, if_neg (by simp; omega)]

end Page

/-- **A group is broken only if it has to be.**  Looking ahead compares the first line of a stack
with any room, also a negative one.  On every page of a run, a group that is taken in broken mode is
laid out flat just if there is no forced break in it and its flat contents, with what follows them
up to the first line end, go on the rest of the line. -/
theorem Page.group_flat_iff_fits (o : Options) (d : Doc) :
    (∀ (todo : List Command) (width : Int), fits todo width = decide ((spans todo : Int) ≤ width)) ∧
    ∀ ls p, Reached o d ls p → ∀ level contents shouldBreak rest,
      p.todo = ⟨level, .broken, .group contents shouldBreak⟩ :: rest →
      shouldBreak = (Doc.group contents shouldBreak).forced ∧
      ∃ mode, p.step o = some { p with todo := ⟨level, mode, contents⟩ :: rest } ∧
        (mode = .flat ↔ (Doc.group contents shouldBreak).forced = false ∧
          p.column + spans (⟨level, .flat, contents⟩ :: rest) ≤ o.printWidth) := by
  refine ⟨fits_eq, ?_⟩
  intro ls p h level contents shouldBreak rest htodo
  have hforced := h.shouldBreak_eq htodo
  obtain ⟨w, c, todo⟩ := p
  obtain rfl : todo = _ := htodo
  refine ⟨hforced, _, step_group w c level .broken contents shouldBreak rest, ?_⟩
  rw [← hforced]
  exact Doc.groupMode_broken o

open Doc in
/-- a group that takes the whole page, with the text behind it -/
theorem Page.group_flat_iff_fits_exact :
    let o : Options := { printWidth := 4 }
    let d : Doc := concat [group (concat [text "a", line, text "b"]) false, text ","]
    ∃ ls p, Reached o d ls p ∧ p.column = 0 ∧
      p.step o = some { p with todo :=
        [⟨0, .flat, concat [text "a", line, text "b"]⟩, ⟨0, .broken, text ","⟩] } := by
  intro o d
  have hreached : Reached o d _ _ := Reached.start.step Step.concat.step_eq
  obtain ⟨-, mode, hstep, hmode⟩ :=
    (group_flat_iff_fits o d).2 _ _ hreached 0 (concat [text "a", line, text "b"]) false
      [⟨0, .broken, text ","⟩] rfl
  obtain rfl : mode = .flat := hmode.mpr (by decide)
  exact ⟨_, _, hreached, rfl, hstep⟩

end Reflow
