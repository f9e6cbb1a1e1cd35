import Reflow.Proofs.TopLevel
import Reflow.Proofs.Trimming

/-!
# Line ends

How a line ends is written and never looked at: no command counts it as columns, and the blanks that
are dropped before it are the same.  So two pages that differ in their line ends alone take the same
commands at the same columns, and have the same lines.

* `Text.pairFeeds`        a text with a carriage return put before every line feed;
* `Options.ending`        the same page with another line end;
* `Page.Reached.ending`   it has the same lines after every command;
* `Doc.lines_ending`      and so in the end;
* `Doc.render_crlf`       a text with paired line ends is the other one with its feeds paired.
-/

namespace Reflow

/-! ## paired line feeds -/

namespace Text

/-- a text with a carriage return put before every line feed -/
def pairFeeds (text : List Char) : List Char :=
  text.flatMap fun c => if c = '\n' then ['\r', '\n'] else [c]

theorem pairFeeds_append (cs ds : List Char) :
    pairFeeds (cs ++ ds) = pairFeeds cs ++ pairFeeds ds := List.flatMap_append

theorem pairFeeds_line {line : List Char} (h : '\n' ∉ line) : pairFeeds line = line := by
  induction line with
  | nil => rfl
  | cons c line ih =>
    have hc : c ≠ '\n' := fun hc => h (hc ▸ List.mem_cons_self)
    have hline : '\n' ∉ line := fun hline => h (List.mem_cons_of_mem c hline)
    rw [pairFeeds, List.flatMap_cons, if_neg hc]
    exact congrArg (c :: ·) (ih hline)

theorem pairFeeds_intercalate {lines : List (List Char)} (h : ∀ line ∈ lines, '\n' ∉ line) :
    pairFeeds (EndOfLine.lf.newline.intercalate lines) =
      EndOfLine.crlf.newline.intercalate lines := by
  induction lines with
  | nil => rfl
  | cons line lines ih =>
    obtain ⟨hline, hlines⟩ := List.forall_mem_cons.mp h
    by_cases hlast : lines = []
    · subst hlast
      rw [List.intercalate_singleton, List.intercalate_singleton, pairFeeds_line hline]
    · rw [List.intercalate_cons_of_ne_nil hlast, List.intercalate_cons_of_ne_nil hlast,
        pairFeeds_append, pairFeeds_append, pairFeeds_line hline, ih hlines]
      rfl

end Text

/-! ## pages with other line ends -/

/-- the same page with another line end -/
def Options.ending (o : Options) (e : EndOfLine) : Options := { o with endOfLine := e }

namespace Page
variable {o : Options} {d : Doc} {p q : Page} {ls : Lines}

/-- a command does the same whatever ends a line, but for what is written -/
theorem step_ending (o : Options) (e : EndOfLine) (p : Page) (w : List Char) :
    (p.onto w).step (o.ending e) =
      (p.step o).map (·.onto ((p.ink o).after trimmed e.newline w)) := by
  obtain ⟨written, column, todo⟩ := p
  cases todo with
  | nil => rfl
  | cons command rest =>
    obtain ⟨level, mode, doc⟩ := command
    cases doc with
    -- the one command that ends a line
    | linebreak soft hard => cases soft <;> cases hard <;> cases mode <;> rfl
    | _ => rfl

theorem ink_ending (o : Options) (e : EndOfLine) (p : Page) (w : List Char) :
    (p.onto w).ink (o.ending e) = p.ink o := rfl

/-- the pages of a run have the same lines, the same columns and the same commands whatever ends a
line -/
theorem Reached.ending (h : Reached o d ls p) (e : EndOfLine) :
    Reached (o.ending e) d ls (p.onto (ls.text e.newline).reverse) := by
  induction h with
  | start => exact .start
  | @step ls p q h hq ih =>
    have hstep := step_ending o e p (ls.text e.newline).reverse
    rw [hq] at hstep
    have hreached := ih.step hstep
    rw [ink_ending] at hreached
    -- what is written on a page is told by its lines
    generalize (p.ink o).after trimmed e.newline (ls.text e.newline).reverse = w at hreached
    have hwritten : w = ((ls.write (p.ink o)).text e.newline).reverse := hreached.written_eq
    rw [← hwritten]
    exact hreached

end Page

namespace Doc

/-- a document has the same lines whatever ends them -/
theorem lines_ending (o : Options) (e : EndOfLine) (d : Doc) :
    d.lines (o.ending e) = d.lines o := by
  have hrun : Page.Reached o d (d.lines o) ((Page.start d).run o) := Page.Reached.start.run
  have hstop : (((Page.start d).run o).onto ((d.lines o).text e.newline).reverse).step
      (o.ending e) = none := by
    unfold Page.step Page.onto
    rw [Page.todo_run]
  calc d.lines (o.ending e)
      = (((Page.start d).run o).onto ((d.lines o).text e.newline).reverse).lines (o.ending e)
          (d.lines o) := (hrun.ending e).lines_eq
    _ = d.lines o := Page.lines_none hstop

end Doc

/-! ## the text -/

/-- the lines of a document without line feeds hold none, so those of its text are the ends -/
theorem Page.Reached.pairFeeds_text {o : Options} {d : Doc} {ls : Lines} {p : Page}
    (h : Page.Reached o d ls p) (hd : '\n' ∉ d.letters) :
    Text.pairFeeds (ls.text EndOfLine.lf.newline) = ls.text EndOfLine.crlf.newline := by
  have hletters : ∀ c ∈ d.letters, c ≠ '\n' := by
    rintro c hc rfl
    exact hd hc
  have hshown := Lines.forall_shown (h.only (by decide) hletters).2
  apply Text.pairFeeds_intercalate
  intro line hline hfeed
  exact hshown line hline '\n' hfeed rfl

namespace Doc

/-- **The end of a line has no bearing on layout.**  If there is no line feed in a document, the
text of the page with paired line ends is that of the page with line feeds, with a carriage return
put before each of them.  Every page of the one run is a page of the other, with the same commands at
the same column, below the same lines. -/
theorem render_crlf (o : Options) {d : Doc} (hd : '\n' ∉ d.letters) :
    d.render (o.ending .crlf) = String.ofList (Text.pairFeeds (d.render (o.ending .lf)).toList) ∧
    ∀ ls p, Page.Reached (o.ending .lf) d ls p →
      Page.Reached (o.ending .crlf) d ls (p.onto (Text.pairFeeds p.written.reverse).reverse) := by
  constructor
  · have hrun : Page.Reached o d (d.lines o) ((Page.start d).run o) := Page.Reached.start.run
    have htext := hrun.pairFeeds_text hd
    unfold render
    rw [String.toList_ofList, layout_eq, layout_eq, lines_ending, lines_ending]
    exact congrArg String.ofList htext.symm
  · intro ls p h
    have htext := h.pairFeeds_text hd
    have hwritten : p.written.reverse = ls.text EndOfLine.lf.newline := by
      rw [h.written_eq, List.reverse_reverse]
      rfl
    rw [hwritten, htext]
    exact h.ending .crlf

/-- a group that is one column too wide, blanks before a line end, and a group that just fits -/
theorem render_crlf_exact :
    let o : Options := { printWidth := 3 }
    let d : Doc := concat [group (concat [text "ab", line, text "c "]) false, hardline,
      group (concat [text "a", line, text "b"]) false]
    '\n' ∉ d.letters ∧ d.render (o.ending .lf) = "ab\nc\na b" ∧
      d.render (o.ending .crlf) = "ab\r\nc\r\na b" := by
  intro o d
  have hd : '\n' ∉ d.letters := by decide
  have hfeeds : d.render (o.ending .lf) = "ab\nc\na b" := by decide +kernel
  refine ⟨hd, hfeeds, ?_⟩
  rw [(render_crlf o hd).1, hfeeds]
  decide

end Doc

end Reflow
