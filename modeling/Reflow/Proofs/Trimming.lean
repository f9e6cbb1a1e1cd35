import Mathlib.Data.Option.Basic
import Reflow.Proofs.Indentation
import Reflow.Proofs.TextLines

/-!
# Trimming

The engine drops the blanks at the end of a line when it begins the next one.  It could as well
leave them where they are, and have them dropped from the text when that is finished: a loop that
drops nothing takes the same commands at the same columns, and its lines are the same but for these
blanks.

* `Page.stepWith`, `Page.runWith`   the loop of the engine, with any way to drop blanks;
* `Doc.untrimmed`                   the text of the loop that drops none;
* `Text.trimLines`                  a text with no blanks at the end of the lines above its last;
* `Page.Untrimmed`                  the pages of the two loops, one beside the other;
* `Page.InStep`                     what these pages have in common;
* `Doc.layout_eq_trimLines`         the text of the engine is the other one, trimmed.

No layout hangs on what is dropped, since a command looks at the column and at the commands after it
and never at what is written.
-/

namespace Reflow

/-! ## the loop, with any way to drop blanks -/

namespace Page

/-- the page after one more command, if there is one, where `drop` is what becomes of the characters
written before a new line -/
def stepWith (drop : List Char → List Char) (o : Options) (p : Page) : Option Page :=
  match p.todo with
  | [] => none
  | ⟨level, mode, doc⟩ :: rest => some <|
    match doc with
    | .text s => ⟨s.toList.reverse ++ p.written, p.column + s.length, rest⟩
    | .concat parts => { p with todo := Command.spread level mode parts ++ rest }
    | .indent contents => { p with todo := ⟨level + 1, mode, contents⟩ :: rest }
    | .group contents shouldBreak =>
      let flat : Command := ⟨level, .flat, contents⟩
      let isFlat := !shouldBreak &&
        (mode = .flat || fits (flat :: rest) ((o.printWidth : Int) - p.column))
      { p with todo := (if isFlat then flat else ⟨level, .broken, contents⟩) :: rest }
    | .ifBreak broken flat => { p with todo := ⟨level, mode, mode.choose broken flat⟩ :: rest }
    | .linebreak soft hard =>
      if mode = .flat ∧ !hard then
        if soft then { p with todo := rest } else ⟨' ' :: p.written, p.column + 1, rest⟩
      else
        let indentation := level * o.tabWidth
        ⟨List.replicate indentation ' ' ++ (o.endOfLine.newline.reverse ++ drop p.written),
          indentation, rest⟩
    | .breakParent => { p with todo := rest }

theorem stepWith_trimmed : stepWith trimmed = step := rfl

/-- a page on which something else is written -/
def onto (p : Page) (written : List Char) : Page := { p with written }

end Page

/-- what is written after a command -/
def Ink.after (drop : List Char → List Char) (newline written : List Char) : Ink → List Char
  | .chars cs => cs.reverse ++ written
  | .newline indentation => List.replicate indentation ' ' ++ (newline.reverse ++ drop written)

namespace Page
variable {o : Options} {d : Doc} {p q : Page} {drop : List Char → List Char}

/-- what is written has no bearing on what a command does -/
theorem stepWith_onto (drop : List Char → List Char) (o : Options) (p : Page) (w : List Char) :
    (p.onto w).stepWith drop o =
      (p.step o).map (·.onto ((p.ink o).after drop o.endOfLine.newline w)) := by
  obtain ⟨written, column, todo⟩ := p
  cases todo with
  | nil => rfl
  | cons command rest =>
    obtain ⟨level, mode, doc⟩ := command
    cases doc with
    -- the one command that looks at what is written, to drop the blanks at its end
    | linebreak soft hard => cases soft <;> cases hard <;> cases mode <;> rfl
    | _ => rfl

theorem weights_stepWith (h : p.stepWith drop o = some q) :
    Command.weights q.todo < Command.weights p.todo := by
  have hmap : (p.onto p.written).stepWith drop o = some q := h
  rw [stepWith_onto, Option.map_eq_some_iff] at hmap
  obtain ⟨next, hnext, rfl⟩ := hmap
  exact weights_step (q := next) hnext

/-- the page after all its commands -/
def runWith (drop : List Char → List Char) (o : Options) (p : Page) : Page :=
  match _h : p.stepWith drop o with
  | none => p
  | some q => q.runWith drop o
termination_by Command.weights p.todo
decreasing_by exact weights_stepWith _h

theorem runWith_elim : p.runWith drop o = (p.stepWith drop o).elim p (·.runWith drop o) := by
  rw [runWith]
  split <;> next h => rw [h]; rfl

theorem runWith_trimmed (o : Options) (p : Page) : p.runWith trimmed o = p.run o := by
  induction p using induct_step o with
  | stop p hp => rw [runWith_elim, stepWith_trimmed, run_elim, hp]; rfl
  | step p q hq ih => rw [runWith_elim, stepWith_trimmed, run_elim, hq]; exact ih

/-- the page after the first `n` commands of a document, if it has as many -/
def pageAt (drop : List Char → List Char) (o : Options) (d : Doc) : Nat → Option Page
  | 0 => some (start d)
  | n + 1 => (pageAt drop o d n).bind (·.stepWith drop o)

end Page

namespace Doc

/-- the characters of a document that is laid out with nothing dropped -/
def untrimmed (o : Options) (d : Doc) : List Char := ((Page.start d).runWith id o).written.reverse

end Doc

/-! ## lines without their blanks -/

theorem withoutBlanks_append (line : List Char) :
    ∃ blanks, withoutBlanks line ++ blanks = line ∧ ∀ c ∈ blanks, c = ' ' ∨ c = '\t' := by
  obtain ⟨blanks, hline, hblanks⟩ := Page.exists_blanks line.reverse
  refine ⟨blanks.reverse, ?_, fun c hc => hblanks c (List.mem_reverse.mp hc)⟩
  rw [withoutBlanks, ← List.reverse_append, ← hline, List.reverse_reverse]

theorem getLast?_withoutBlanks {c : Char} {line : List Char}
    (h : (withoutBlanks line).getLast? = some c) : c ≠ ' ' ∧ c ≠ '\t' := by
  have hhead := line.reverse.head?_dropWhile_not fun c => c == ' ' || c == '\t'
  rw [withoutBlanks, List.getLast?_reverse, Page.trimmed] at h
  simpa [h] using hhead

theorem count_withoutBlanks {c : Char} (hspace : c ≠ ' ') (htab : c ≠ '\t') (line : List Char) :
    (withoutBlanks line).count c = line.count c := by
  obtain ⟨blanks, hline, hblanks⟩ := withoutBlanks_append line
  have hc : blanks.count c = 0 :=
    List.count_eq_zero.mpr fun hmem => (hblanks c hmem).elim hspace htab
  calc (withoutBlanks line).count c
      = (withoutBlanks line ++ blanks).count c := by rw [List.count_append, hc, Nat.add_zero]
    _ = line.count c := by rw [hline]

theorem EndOfLine.ending (e : EndOfLine) (text : List Char) : Text.Ending e.newline text := by
  cases e with
  | lf => exact .feed text
  | crlf => exact .pair text

namespace Text
variable {line ending text : List Char}

/-- a line without the blanks before the characters that end it, or as it is if nothing ends it -/
def trimLine (line : List Char) : List Char :=
  match line.dropWhile (!isLineEnd ·) with
  | [] => line
  | ending => withoutBlanks (line.takeWhile (!isLineEnd ·)) ++ ending

/-- a text without the blanks at the end of its lines, except for what stands after all new lines -/
def trimLines (text : List Char) : List Char := (lines text).flatMap trimLine

theorem trimLine_inLine (h : InLine line) : trimLine line = line := by
  have hdrop : line.dropWhile (!isLineEnd ·) = [] := by simpa [InLine] using h
  rw [trimLine, hdrop]

theorem trimLine_ended (h : InLine line) (hending : Ending ending text) :
    trimLine (line ++ ending) = withoutBlanks line ++ ending := by
  have hline : ∀ c ∈ line, (!isLineEnd c) = true := by simpa [InLine] using h
  rw [trimLine, List.takeWhile_append_of_pos hline, List.dropWhile_append_of_pos hline]
  cases hending <;> simp [isLineEnd]

theorem trimLines_inLine (h : InLine line) : trimLines line = line := by
  cases line with
  | nil => rfl
  | cons c cs =>
    rw [trimLines, lines_inLine (List.cons_ne_nil c cs) h, List.flatMap_singleton,
      trimLine_inLine h]

theorem trimLines_ended (h : InLine line) (hending : Ending ending text) :
    trimLines (line ++ (ending ++ text)) = withoutBlanks line ++ (ending ++ trimLines text) := by
  rw [trimLines, lines_ended h hending, List.flatMap_cons, trimLine_ended h hending,
    List.append_assoc, trimLines]

theorem trimLines_above (e : EndOfLine) {done : List (List Char)} {last : List Char}
    (hdone : ∀ line ∈ done, InLine line) (hlast : InLine last) :
    trimLines (done.flatMap (· ++ e.newline) ++ last) = Lines.above e.newline done ++ last := by
  induction done with
  | nil => exact trimLines_inLine hlast
  | cons line done ih =>
    obtain ⟨hline, hdone⟩ := List.forall_mem_cons.mp hdone
    rw [List.flatMap_cons, List.append_assoc, List.append_assoc,
      trimLines_ended hline (e.ending _), ih hdone, Lines.above, Lines.above, List.flatMap_cons,
      List.append_assoc, List.append_assoc]

theorem count_trimLine {c : Char} (hspace : c ≠ ' ') (htab : c ≠ '\t') (line : List Char) :
    (trimLine line).count c = line.count c := by
  unfold trimLine
  split
  · rfl
  · rw [List.count_append, count_withoutBlanks hspace htab, ← List.count_append,
      List.takeWhile_append_dropWhile]

/-- nothing but blanks is lost -/
theorem count_trimLines {c : Char} (hspace : c ≠ ' ') (htab : c ≠ '\t') (text : List Char) :
    (trimLines text).count c = text.count c := by
  have hline : List.count c ∘ trimLine = List.count c :=
    funext fun line => count_trimLine hspace htab line
  rw [trimLines, List.count_flatMap, hline, ← List.count_flatten, lines_flatten]

end Text

/-! ## two loops in step -/

namespace Page
variable {o : Options} {d : Doc} {p q : Page}

/-- the pages that the two loops have come to: with nothing dropped, all lines are whole -/
def Untrimmed (o : Options) (d : Doc) (p q : Page) : Prop :=
  ∃ ls, Reached o d ls p ∧ q = p.onto (o.endOfLine.newline.intercalate ls.all).reverse

theorem untrimmed_start (o : Options) (d : Doc) : Untrimmed o d (start d) (start d) :=
  ⟨{}, .start, rfl⟩

/-- a loop that drops nothing leaves the lines whole -/
theorem after_whole (newline : List Char) (ls : Lines) (ink : Ink) :
    ink.after id newline (newline.intercalate ls.all).reverse =
      (newline.intercalate (ls.write ink).all).reverse := by
  cases ink with
  | chars cs =>
    rw [Ink.after, Lines.write, Lines.all, Lines.all, Lines.intercalate_concat,
      Lines.intercalate_concat, ← List.reverse_append, List.append_assoc]
  | newline n =>
    rw [Ink.after, Lines.write, Lines.all, Lines.all, Lines.intercalate_concat,
      Lines.intercalate_concat, List.flatMap_append, List.flatMap_singleton, id_eq]
    simp only [List.reverse_append, List.reverse_replicate, List.append_assoc]

theorem Untrimmed.step (h : Untrimmed o d p q) :
    Option.Rel (Untrimmed o d) (p.step o) (q.stepWith id o) := by
  obtain ⟨ls, hls, rfl⟩ := h
  rw [stepWith_onto, after_whole]
  cases hp : p.step o with
  | none => exact .none
  | some next => exact .some ⟨_, hls.step hp, rfl⟩

theorem untrimmed_pageAt (o : Options) (d : Doc) (n : Nat) :
    Option.Rel (Untrimmed o d) (pageAt trimmed o d n) (pageAt id o d n) := by
  induction n with
  | zero => exact .some (untrimmed_start o d)
  | succ n ih =>
    rw [pageAt, pageAt]
    generalize pageAt trimmed o d n = page, pageAt id o d n = whole at ih ⊢
    cases ih with
    | none => exact .none
    | some h => exact h.step

theorem Untrimmed.run (h : Untrimmed o d p q) : Untrimmed o d (p.run o) (q.runWith id o) := by
  induction p using induct_step o generalizing q with
  | stop p hp =>
    have hstep := h.step
    rw [hp] at hstep
    rw [run_none hp, runWith_elim]
    generalize q.stepWith id o = next at hstep
    -- the loop that drops nothing has come to its end as well
    cases hstep
    exact h
  | step p next hp ih =>
    have hstep := h.step
    rw [hp] at hstep
    rw [run_some hp, runWith_elim]
    generalize q.stepWith id o = next at hstep
    cases hstep with
    | some h => exact ih h

/-- what the pages of the two loops have in common -/
structure InStep (o : Options) (p q : Page) : Prop where
  todo : q.todo = p.todo
  column : q.column = p.column
  text : p.written.reverse = Text.trimLines q.written.reverse
  /-- a new line would drop blanks, and they are all on the line that has been begun -/
  dropped : ∃ above line blanks, p.written.reverse = above ++ (line ++ blanks) ∧
    (trimmed p.written).reverse = above ++ line ∧ (∀ c ∈ blanks, c = ' ' ∨ c = '\t') ∧
    (above = [] ∨ o.endOfLine.newline <:+ above) ∧ InLine (line ++ blanks) ∧
    p.column = (line ++ blanks).length

theorem Reached.inLine {ls : Lines} (h : Reached o d ls p) (hd : InLine d.letters) :
    (∀ line ∈ ls.done, InLine line) ∧ InLine ls.last := by
  obtain ⟨hdone, hlast⟩ := List.forall_mem_append.mp (h.only (by decide) hd).2
  exact ⟨hdone, List.forall_mem_singleton.mp hlast⟩

theorem Untrimmed.inStep (h : Untrimmed o d p q) (hd : InLine d.letters) : InStep o p q := by
  obtain ⟨ls, hls, rfl⟩ := h
  obtain ⟨hdone, hlast⟩ := hls.inLine hd
  have hwritten : p.written.reverse = Lines.above o.endOfLine.newline ls.done ++ ls.last := by
    rw [hls.written_eq, List.reverse_reverse, Lines.text_eq]
  have htrimmed : (trimmed p.written).reverse =
      Lines.above o.endOfLine.newline ls.done ++ withoutBlanks ls.last := by
    rw [hls.written_eq, trimmed_text, List.reverse_reverse]
  refine ⟨rfl, rfl, ?_, ?_⟩
  · rw [hwritten, onto, List.reverse_reverse, Lines.all, Lines.intercalate_concat,
      Text.trimLines_above o.endOfLine hdone hlast]
  · obtain ⟨blanks, hblanks, hkind⟩ := withoutBlanks_append ls.last
    refine ⟨Lines.above o.endOfLine.newline ls.done, withoutBlanks ls.last, blanks, ?_,
      htrimmed, hkind, Lines.above_cases o.endOfLine.newline ls.done, ?_, ?_⟩
    · rw [hblanks, hwritten]
    · rw [hblanks]
      exact hlast
    · rw [hblanks, hls.column_eq]

end Page

/-! ## the text -/

namespace Doc

/-- the same lines, with and without the blanks at their end -/
theorem layout_lines (o : Options) {d : Doc} (hd : InLine d.letters) :
    ∃ done last, (∀ line ∈ done ++ [last], InLine line) ∧
      d.untrimmed o = o.endOfLine.newline.intercalate (done ++ [last]) ∧
      d.layout o = o.endOfLine.newline.intercalate (done.map withoutBlanks ++ [last]) := by
  obtain ⟨ls, hls, hwhole⟩ := (Page.untrimmed_start o d).run
  refine ⟨ls.done, ls.last, (hls.only (by decide) hd).2, ?_, ?_⟩
  · rw [untrimmed, hwhole, Page.onto, List.reverse_reverse, Lines.all]
  · rw [layout, hls.written_eq, List.reverse_reverse, Lines.text, Lines.shown]

/-- **To trim while a document is laid out is to trim its text.**  A document whose texts end no
lines has the same lines whether or not blanks are dropped before new lines, but for these blanks at
the end of all lines except the last.  So its text is the other one trimmed, with as many new lines,
and no line above the last one ends in a blank.  The two loops are in step after every command. -/
theorem layout_eq_trimLines (o : Options) (d : Doc) (hd : InLine d.letters) :
    d.layout o = Text.trimLines (d.untrimmed o) ∧
    (d.layout o).count '\n' = (d.untrimmed o).count '\n' ∧
    (∃ done last, (∀ line ∈ done ++ [last], InLine line) ∧
      d.untrimmed o = o.endOfLine.newline.intercalate (done ++ [last]) ∧
      d.layout o = o.endOfLine.newline.intercalate (done.map withoutBlanks ++ [last]) ∧
      ∀ line ∈ done.map withoutBlanks, ∀ c, line.getLast? = some c → c ≠ ' ' ∧ c ≠ '\t') ∧
    ∀ n, Option.Rel (Page.InStep o) (Page.pageAt Page.trimmed o d n) (Page.pageAt id o d n) := by
  have htext : d.layout o = Text.trimLines (d.untrimmed o) :=
    ((Page.untrimmed_start o d).run.inStep hd).text
  refine ⟨htext, ?_, ?_, fun n => ?_⟩
  · rw [htext, Text.count_trimLines (by decide) (by decide)]
  · obtain ⟨done, last, hlines, huntrimmed, hlayout⟩ := layout_lines o hd
    refine ⟨done, last, hlines, huntrimmed, hlayout, fun line hline c hc => ?_⟩
    obtain ⟨whole, -, rfl⟩ := List.mem_map.mp hline
    exact getLast?_withoutBlanks hc
  · have hpages := Page.untrimmed_pageAt o d n
    generalize Page.pageAt Page.trimmed o d n = page, Page.pageAt id o d n = whole at hpages ⊢
    cases hpages with
    | none => exact .none
    | some h => exact .some (h.inStep hd)

/-- blanks at the end of a text, an indented line with nothing on it, and blanks at the very end -/
theorem layout_eq_trimLines_blank :
    let o : Options := { tabWidth := 2, endOfLine := .crlf }
    let d : Doc := concat [text "a \t", indent (concat [hardline, hardline, text "b "])]
    InLine d.letters ∧
      d.untrimmed o = "a \t\r\n  \r\n  b ".toList ∧ d.layout o = "a\r\n\r\n  b ".toList ∧
      (d.layout o).count '\n' = (d.untrimmed o).count '\n' ∧
      (Page.pageAt id o d 5).isSome ∧
      Option.Rel (Page.InStep o) (Page.pageAt Page.trimmed o d 5) (Page.pageAt id o d 5) := by
  intro o d
  have hd : InLine d.letters := by decide
  have huntrimmed : d.untrimmed o = "a \t\r\n  \r\n  b ".toList := by decide +kernel
  obtain ⟨htext, hcount, -, hpages⟩ := layout_eq_trimLines o d hd
  refine ⟨hd, huntrimmed, ?_, hcount, by decide, hpages 5⟩
  rw [htext, huntrimmed]
  decide

end Doc

end Reflow
