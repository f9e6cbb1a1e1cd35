import Mathlib.Data.List.Basic
import Reflow.Text.Lines

/-!
# Texts cut into lines

A line is ended by a line feed, by a carriage return and a line feed, or by a carriage return that
no line feed follows.  The last line of a text may be ended by nothing, if there is anything on it.

* `isLineEnd`, `InLine`     the characters that end lines, and texts that hold none of them;
* `Text.Ending`, `Text.Cut` what ends a line, and a text that is cut into lines;
* `Text.cut_iff`            a text can be cut in one way, which is `Text.lines`.
-/

namespace Reflow

def isLineEnd (c : Char) : Bool := c == '\n' || c == '\r'

theorem isLineEnd_eq_false {c : Char} : isLineEnd c = false ↔ c ≠ '\n' ∧ c ≠ '\r' := by
  simp [isLineEnd]

/-- characters inside a line -/
def InLine (cs : List Char) : Prop := ∀ c ∈ cs, isLineEnd c = false

instance : DecidablePred InLine := fun cs => List.decidableBAll (fun c => isLineEnd c = false) cs

theorem InLine.append {cs ds : List Char} (hcs : InLine cs) (hds : InLine ds) : InLine (cs ++ ds) :=
  List.forall_mem_append.mpr ⟨hcs, hds⟩

namespace Text

/-- `Ending cs text`: a line may end with the characters `cs` if `text` comes next -/
inductive Ending : List Char → List Char → Prop where
  | feed (text : List Char) : Ending ['\n'] text
  | pair (text : List Char) : Ending ['\r', '\n'] text
  | lone {text : List Char} (h : text.head? ≠ some '\n') : Ending ['\r'] text

/-- a text that is cut into lines, each with the characters that end it -/
inductive Cut : List Char → List (List Char) → Prop where
  | nil : Cut [] []
  | last {line : List Char} (hne : line ≠ []) (h : InLine line) : Cut line [line]
  | cons {line ending text : List Char} {ls : List (List Char)} (h : InLine line)
    (hending : Ending ending text) (hrest : Cut text ls) :
    Cut (line ++ (ending ++ text)) ((line ++ ending) :: ls)

section
variable {line ending text : List Char}

/-- a character inside a line stands on the line of those after it -/
theorem lines_cons {c : Char} (hc : isLineEnd c = false) (cs : List Char) :
    lines (c :: cs) = match lines cs with
      | [] => [[c]]
      | l :: ls => (c :: l) :: ls := by
  obtain ⟨hfeed, hreturn⟩ := isLineEnd_eq_false.mp hc
  exact lines.eq_5 c cs (fun _ h _ => hreturn h) hreturn hfeed

theorem lines_ended (h : InLine line) (hending : Ending ending text) :
    lines (line ++ (ending ++ text)) = (line ++ ending) :: lines text := by
  induction line with
  | nil =>
    cases hending with
    | feed => rfl
    | pair => rfl
    | lone hnext =>
      refine lines.eq_3 text fun cs hcs => hnext ?_
      rw [hcs]
      rfl
  | cons c line ih =>
    obtain ⟨hc, hline⟩ := List.forall_mem_cons.mp h
    rw [List.cons_append, lines_cons hc, ih hline]
    rfl

theorem lines_inLine (hne : line ≠ []) (h : InLine line) : lines line = [line] := by
  induction line with
  | nil => exact absurd rfl hne
  | cons c line ih =>
    obtain ⟨hc, hline⟩ := List.forall_mem_cons.mp h
    rw [lines_cons hc]
    cases line with
    | nil => rfl
    | cons c' line => rw [ih (List.cons_ne_nil _ _) hline]

end

theorem Cut.eq_lines {text : List Char} {ls : List (List Char)} (h : Cut text ls) :
    ls = lines text := by
  induction h with
  | nil => rfl
  | last hne h => rw [lines_inLine hne h]
  | cons h hending _ ih => rw [lines_ended h hending, ih]

/-- a character inside a line before a text that is cut into lines -/
theorem Cut.inside {c : Char} {cs line : List Char} {ls : List (List Char)}
    (h : Cut cs (line :: ls)) (hc : isLineEnd c = false) : Cut (c :: cs) ((c :: line) :: ls) := by
  cases h with
  | last hne h => exact .last (List.cons_ne_nil _ _) (List.forall_mem_cons.mpr ⟨hc, h⟩)
  | cons h hending hrest => exact .cons (List.forall_mem_cons.mpr ⟨hc, h⟩) hending hrest

theorem cut_lines (text : List Char) : Cut text (lines text) := by
  have hnil : InLine [] := List.forall_mem_nil _
  induction text using lines.induct with
  | case1 => exact .nil
  | case2 cs ih => exact .cons hnil (.pair cs) ih
  | case3 cs h ih =>
    rw [lines.eq_3 cs h]
    refine .cons hnil (.lone fun hcs => ?_) ih
    obtain ⟨cs', rfl⟩ := List.head?_eq_some_iff.mp hcs
    exact h cs' rfl
  | case4 cs ih => exact .cons hnil (.feed cs) ih
  | case5 c cs hpair hlone hfeed hlines ih =>
    rw [hlines] at ih
    cases ih
    have hc : isLineEnd c = false := isLineEnd_eq_false.mpr ⟨hfeed, hlone⟩
    rw [lines_cons hc]
    exact .last (List.cons_ne_nil _ _) (List.forall_mem_singleton.mpr hc)
  | case6 c cs hpair hlone hfeed line ls hlines ih =>
    rw [hlines] at ih
    have hc : isLineEnd c = false := isLineEnd_eq_false.mpr ⟨hfeed, hlone⟩
    rw [lines_cons hc, hlines]
    exact ih.inside hc

theorem cut_iff (text : List Char) (ls : List (List Char)) : Cut text ls ↔ ls = lines text := by
  refine ⟨Cut.eq_lines, ?_⟩
  rintro rfl
  exact cut_lines text

end Text

end Reflow
