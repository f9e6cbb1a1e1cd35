import Mathlib.Data.List.TakeWhile
import Reflow.Doc.Layout

/-!
# Runs of the layout engine

`Page.Step` says once what a command does; what holds along a run is proved by its cases.

* `Page.Step`, `Page.step_iff`   one command, case by case;
* `Ink`, `Page.ink`              what a command writes: characters, or a new line with indentation;
* `Lines`                        what was written, cut where the engine began a new line;
* `Page.Reached`                 the pages of a run, each with the lines written before it;
* `Page.lines`, `Doc.lines`      the lines at the end of a run;
* `Reached.written_eq`, `Doc.layout_eq`   the text so far, and in the end, is just these lines.

A line keeps the blanks at its end.  They are dropped when the next line is begun, and never reach
back into the line before.  A new line in the text of a document is a character like any other.
-/

namespace Reflow

/-! ## one command -/

namespace Page

inductive Step (o : Options) : Page → Page → Prop where
  | text {w c level mode s rest} :
    Step o ⟨w, c, ⟨level, mode, .text s⟩ :: rest⟩ ⟨s.toList.reverse ++ w, c + s.length, rest⟩
  | concat {w c level mode parts rest} :
    Step o ⟨w, c, ⟨level, mode, .concat parts⟩ :: rest⟩
      ⟨w, c, Command.spread level mode parts ++ rest⟩
  | indent {w c level mode contents rest} :
    Step o ⟨w, c, ⟨level, mode, .indent contents⟩ :: rest⟩
      ⟨w, c, ⟨level + 1, mode, contents⟩ :: rest⟩
  /-- a group inside a flat one -/
  | inherited {w c level contents rest} :
    Step o ⟨w, c, ⟨level, .flat, .group contents false⟩ :: rest⟩
      ⟨w, c, ⟨level, .flat, contents⟩ :: rest⟩
  | fitted {w} {c : Nat} {level contents rest}
    (h : fits (⟨level, .flat, contents⟩ :: rest) ((o.printWidth : Int) - c) = true) :
    Step o ⟨w, c, ⟨level, .broken, .group contents false⟩ :: rest⟩
      ⟨w, c, ⟨level, .flat, contents⟩ :: rest⟩
  | unfitted {w} {c : Nat} {level contents rest}
    (h : fits (⟨level, .flat, contents⟩ :: rest) ((o.printWidth : Int) - c) = false) :
    Step o ⟨w, c, ⟨level, .broken, .group contents false⟩ :: rest⟩
      ⟨w, c, ⟨level, .broken, contents⟩ :: rest⟩
  /-- a group that is marked as broken -/
  | marked {w c level mode contents rest} :
    Step o ⟨w, c, ⟨level, mode, .group contents true⟩ :: rest⟩
      ⟨w, c, ⟨level, .broken, contents⟩ :: rest⟩
  | ifBreak {w c level mode broken flat rest} :
    Step o ⟨w, c, ⟨level, mode, .ifBreak broken flat⟩ :: rest⟩
      ⟨w, c, ⟨level, mode, mode.choose broken flat⟩ :: rest⟩
  | softline {w c level rest} :
    Step o ⟨w, c, ⟨level, .flat, .linebreak true false⟩ :: rest⟩ ⟨w, c, rest⟩
  | space {w c level rest} :
    Step o ⟨w, c, ⟨level, .flat, .linebreak false false⟩ :: rest⟩ ⟨' ' :: w, c + 1, rest⟩
  | newline {w c level mode soft hard rest} (h : mode = .broken ∨ hard = true) :
    Step o ⟨w, c, ⟨level, mode, .linebreak soft hard⟩ :: rest⟩
      ⟨List.replicate (level * o.tabWidth) ' ' ++ (o.endOfLine.newline.reverse ++ trimmed w),
        level * o.tabWidth, rest⟩
  | breakParent {w c level mode rest} :
    Step o ⟨w, c, ⟨level, mode, .breakParent⟩ :: rest⟩ ⟨w, c, rest⟩

variable {o : Options} {p q : Page}

theorem Step.step_eq (h : Step o p q) : p.step o = some q := by
  cases h with
  | fitted h => simp [step, h]
  | unfitted h => simp [step, h]
  | newline h => rcases h with rfl | rfl <;> simp [step]
  | _ => rfl

theorem step_iff : p.step o = some q ↔ Step o p q := by
  refine ⟨fun h => ?_, Step.step_eq⟩
  obtain ⟨w, c, todo⟩ := p
  cases todo with
  | nil => cases h
  | cons command rest =>
    obtain ⟨level, mode, doc⟩ := command
    have hq (q' : Page) (h' : Step o ⟨w, c, ⟨level, mode, doc⟩ :: rest⟩ q') :
        Step o ⟨w, c, ⟨level, mode, doc⟩ :: rest⟩ q := by
      have heq : some q' = some q := h'.step_eq.symm.trans h
      rwa [Option.some.inj heq] at h'
    cases doc with
    | text s => exact hq _ .text
    | concat parts => exact hq _ .concat
    | indent contents => exact hq _ .indent
    | ifBreak broken flat => exact hq _ .ifBreak
    | breakParent => exact hq _ .breakParent
    | group contents shouldBreak =>
      cases shouldBreak with
      | true => exact hq _ .marked
      | false =>
        cases mode with
        | flat => exact hq _ .inherited
        | broken =>
          cases hfits : fits (⟨level, .flat, contents⟩ :: rest) ((o.printWidth : Int) - c) with
          | true => exact hq _ (.fitted hfits)
          | false => exact hq _ (.unfitted hfits)
    | linebreak soft hard =>
      cases hard with
      | true => exact hq _ (.newline (.inr rfl))
      | false =>
        cases mode with
        | broken => exact hq _ (.newline (.inl rfl))
        | flat =>
          cases soft with
          | true => exact hq _ .softline
          | false => exact hq _ .space

end Page

/-! ## what is written -/

/-- what a command writes -/
inductive Ink where
  | chars (cs : List Char)
  | newline (indentation : Nat)

def Page.ink (o : Options) (p : Page) : Ink :=
  match p.todo with
  | ⟨_, _, .text s⟩ :: _ => .chars s.toList
  | ⟨level, mode, .linebreak soft hard⟩ :: _ =>
    if mode = .flat ∧ !hard then .chars (if soft then [] else [' '])
    else .newline (level * o.tabWidth)
  | _ => .chars []

theorem Page.Step.ink_cases {o : Options} {p q : Page} (h : Step o p q) :
    (∃ cs, p.ink o = .chars cs ∧ q.written = cs.reverse ++ p.written ∧
      q.column = p.column + cs.length) ∨
    (∃ n, p.ink o = .newline n ∧ q.column = n ∧
      q.written = List.replicate n ' ' ++ (o.endOfLine.newline.reverse ++ trimmed p.written)) := by
  cases h with
  | text => exact .inl ⟨_, rfl, rfl, rfl⟩
  | space => exact .inl ⟨_, rfl, rfl, rfl⟩
  | newline h => exact .inr ⟨_, by rcases h with rfl | rfl <;> simp [ink], rfl, rfl⟩
  | _ => exact .inl ⟨[], rfl, rfl, rfl⟩

/-- lines that are written: those that are finished, and the last one -/
structure Lines where
  done : List (List Char) := []
  last : List Char := []

def withoutBlanks (line : List Char) : List Char := (Page.trimmed line.reverse).reverse

namespace Lines

def all (ls : Lines) : List (List Char) := ls.done ++ [ls.last]

def above (newline : List Char) (done : List (List Char)) : List Char :=
  done.flatMap (withoutBlanks · ++ newline)

theorem above_concat (newline : List Char) (done : List (List Char)) (line : List Char) :
    above newline (done ++ [line]) = above newline done ++ (withoutBlanks line ++ newline) := by
  rw [above, above, List.flatMap_append, List.flatMap_singleton]

/-- the text above the last line is nothing, or ends where the last line begins -/
theorem above_cases (newline : List Char) (done : List (List Char)) :
    above newline done = [] ∨ newline <:+ above newline done := by
  rcases List.eq_nil_or_concat done with rfl | ⟨done, line, rfl⟩
  · exact .inl rfl
  · refine .inr ⟨above newline done ++ withoutBlanks line, ?_⟩
    rw [List.concat_eq_append, above_concat, List.append_assoc]

theorem intercalate_concat (newline : List Char) (done : List (List Char)) (last : List Char) :
    newline.intercalate (done ++ [last]) = done.flatMap (· ++ newline) ++ last := by
  induction done with
  | nil => exact List.intercalate_singleton
  | cons line done ih =>
    have hne : done ++ [last] ≠ [] := List.concat_ne_nil last _
    rw [List.cons_append, List.intercalate_cons_of_ne_nil hne, ih, List.flatMap_cons,
      List.append_assoc, List.append_assoc, List.append_assoc]

theorem intercalate_shown (newline : List Char) (done : List (List Char)) (last : List Char) :
    newline.intercalate (done.map withoutBlanks ++ [last]) = above newline done ++ last := by
  rw [intercalate_concat, List.flatMap_map, above]

/-- lines as they are in the text: the finished ones have lost the blanks at their end -/
def shown (ls : Lines) : List (List Char) := ls.done.map withoutBlanks ++ [ls.last]

def text (newline : List Char) (ls : Lines) : List Char := newline.intercalate ls.shown

theorem text_eq (newline : List Char) (ls : Lines) :
    ls.text newline = above newline ls.done ++ ls.last := intercalate_shown newline ls.done ls.last

theorem length_withoutBlanks (line : List Char) : (withoutBlanks line).length ≤ line.length := by
  have hle := (List.dropWhile_sublist (l := line.reverse) fun c => c == ' ' || c == '\t').length_le
  rw [List.length_reverse] at hle
  rw [withoutBlanks, List.length_reverse]
  exact hle

/-- a line of the text is not longer than it was written -/
theorem length_shown {ls : Lines} {i : Nat} {line whole : List Char} (hl : ls.shown[i]? = some line)
    (hw : ls.all[i]? = some whole) : line.length ≤ whole.length := by
  have hlen : (ls.done.map withoutBlanks).length = ls.done.length := List.length_map _
  by_cases hi : i < ls.done.length
  · rw [shown, List.getElem?_append_left (hlen ▸ hi), List.getElem?_map] at hl
    rw [all, List.getElem?_append_left hi] at hw
    rw [hw] at hl
    obtain rfl := Option.some.inj hl
    exact length_withoutBlanks whole
  · have hle : ls.done.length ≤ i := Nat.le_of_not_lt hi
    rw [shown, List.getElem?_append_right (hlen ▸ hle), hlen] at hl
    rw [all, List.getElem?_append_right hle, hl] at hw
    exact Nat.le_of_eq (congrArg List.length (Option.some.inj hw))

def write (ls : Lines) : Ink → Lines
  | .chars cs => ⟨ls.done, ls.last ++ cs⟩
  | .newline indentation => ⟨ls.done ++ [ls.last], List.replicate indentation ' '⟩

end Lines

namespace Page

/-- the pages of a run, each with the lines written so far -/
inductive Reached (o : Options) (d : Doc) : Lines → Page → Prop where
  | start : Reached o d {} (start d)
  | step {ls p q} (h : Reached o d ls p) (hq : p.step o = some q) :
    Reached o d (ls.write (p.ink o)) q

/-- the lines at the end of a run that goes on from a page -/
def lines (o : Options) (p : Page) (ls : Lines) : Lines :=
  match _h : p.step o with
  | none => ls
  | some q => q.lines o (ls.write (p.ink o))
termination_by Command.weights p.todo
decreasing_by exact weights_step _h

section
variable {o : Options} {d : Doc} {p q : Page} {ls : Lines}

theorem lines_elim :
    p.lines o ls = (p.step o).elim ls fun q => q.lines o (ls.write (p.ink o)) := by
  rw [lines]
  split <;> next h => rw [h]; rfl

theorem lines_none (h : p.step o = none) : p.lines o ls = ls := by
  rw [lines_elim, h]
  rfl

theorem lines_some (h : p.step o = some q) : p.lines o ls = q.lines o (ls.write (p.ink o)) := by
  rw [lines_elim, h]
  rfl

theorem run_elim : p.run o = (p.step o).elim p (run o) := by
  rw [run]
  split <;> next h => rw [h]; rfl

theorem run_none (h : p.step o = none) : p.run o = p := by
  rw [run_elim, h]
  rfl

theorem run_some (h : p.step o = some q) : p.run o = q.run o := by
  rw [run_elim, h]
  rfl

/-- what holds of every page that has no step, and of every page whose next page it holds of, holds
of all pages -/
theorem induct_step {P : Page → Prop} (o : Options) (stop : ∀ p, p.step o = none → P p)
    (step : ∀ p q, p.step o = some q → P q → P p) (p : Page) : P p := by
  cases h : p.step o with
  | none => exact stop p h
  | some q => exact step p q h (induct_step o stop step q)
termination_by Command.weights p.todo
decreasing_by exact weights_step h

/-! ## the text is its lines -/

/-- what is dropped from the end are blanks -/
theorem exists_blanks (w : List Char) :
    ∃ blanks, w = blanks ++ trimmed w ∧ ∀ c ∈ blanks, c = ' ' ∨ c = '\t' := by
  refine ⟨w.takeWhile fun c => c == ' ' || c == '\t', List.takeWhile_append_dropWhile.symm, ?_⟩
  intro c hc
  simpa using List.mem_takeWhile_imp hc

theorem trimmed_append {line above : List Char} (h : trimmed above = above) :
    trimmed (line ++ above) = trimmed line ++ above := by
  rw [trimmed, List.dropWhile_append]
  split
  · next hempty =>
    rw [trimmed, List.isEmpty_iff.mp hempty, List.nil_append]
    exact h
  · rfl

/-- dropping blanks stops at the end of the last finished line -/
theorem trimmed_above (done : List (List Char)) :
    trimmed (Lines.above o.endOfLine.newline done).reverse =
      (Lines.above o.endOfLine.newline done).reverse := by
  rcases Lines.above_cases o.endOfLine.newline done with h | ⟨before, h⟩
  · rw [h]
    rfl
  · rw [← h]
    cases o.endOfLine <;> simp [EndOfLine.newline, trimmed]

/-- so it reaches no further back than the line that has been begun -/
theorem trimmed_text (o : Options) (ls : Lines) :
    trimmed (ls.text o.endOfLine.newline).reverse =
      (Lines.above o.endOfLine.newline ls.done ++ withoutBlanks ls.last).reverse := by
  rw [Lines.text_eq, List.reverse_append, trimmed_append (trimmed_above ls.done),
    List.reverse_append, withoutBlanks, List.reverse_reverse]

theorem written_write (h : Step o p q) (hp : p.written = (ls.text o.endOfLine.newline).reverse) :
    q.written = ((ls.write (p.ink o)).text o.endOfLine.newline).reverse := by
  rcases h.ink_cases with ⟨cs, hink, hq, -⟩ | ⟨n, hink, -, hq⟩
  · rw [hq, hp, hink, Lines.write, Lines.text_eq, Lines.text_eq, ← List.reverse_append,
      List.append_assoc]
  · rw [hq, hp, trimmed_text, hink, Lines.write, Lines.text_eq, Lines.above_concat]
    simp only [List.reverse_append, List.reverse_replicate, List.append_assoc]

theorem column_write (h : Step o p q) (hp : p.column = ls.last.length) :
    q.column = (ls.write (p.ink o)).last.length := by
  rcases h.ink_cases with ⟨cs, hink, -, hq⟩ | ⟨n, hink, hq, -⟩
  · rw [hq, hp, hink, Lines.write, List.length_append]
  · rw [hq, hink, Lines.write, List.length_replicate]

namespace Reached

theorem written_eq (h : Reached o d ls p) :
    p.written = (ls.text o.endOfLine.newline).reverse := by
  induction h with
  | start => rfl
  | step h hq ih => exact written_write (step_iff.mp hq) ih

theorem column_eq (h : Reached o d ls p) : p.column = ls.last.length := by
  induction h with
  | start => rfl
  | step h hq ih => exact column_write (step_iff.mp hq) ih

theorem lines_eq (h : Reached o d ls p) : (Page.start d).lines o {} = p.lines o ls := by
  induction h with
  | start => rfl
  | step h hq ih => rw [ih, lines_some hq]

/-- a run passes through pages that are reached until there is no command left -/
theorem run (h : Reached o d ls p) : Reached o d (p.lines o ls) (p.run o) := by
  induction p using induct_step o generalizing ls with
  | stop p hp =>
    rw [lines_none hp, run_none hp]
    exact h
  | step p q hq ih =>
    rw [lines_some hq, run_some hq]
    exact ih (.step h hq)

end Reached

end

end Page

namespace Doc

def lines (o : Options) (d : Doc) : Lines := (Page.start d).lines o {}

/-- a document that is laid out is its lines -/
theorem layout_eq (o : Options) (d : Doc) :
    d.layout o = (d.lines o).text o.endOfLine.newline := by
  have hrun : Page.Reached o d (d.lines o) ((Page.start d).run o) := Page.Reached.start.run
  rw [layout, hrun.written_eq, List.reverse_reverse]

end Doc

end Reflow
