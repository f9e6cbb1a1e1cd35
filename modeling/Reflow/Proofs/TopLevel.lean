import Reflow.Proofs.ForcedBreaks
import Reflow.Proofs.RuleDocuments

/-!
# Top-level statements

Between two top-level statements there are forced line breaks.  Nothing that the engine knows gets
past them: not the column, not the blanks that may still be dropped, and not what it sees when it
looks ahead.  So each statement is laid out as if it were alone.

* `EndsLine`, `fits_append`   looking ahead stops where a line is certain to end;
* `Page.run_before`           commands in front of a line end run as if they were all there is;
* `Page.run_above`            commands below a finished line run as if nothing were above them;
* `Node.render_append`        the text of two runs of statements is their texts with an empty line
                              between them.
-/

namespace Reflow

/-! ## looking ahead -/

/-- commands before which a line certainly ends -/
def EndsLine (rest : List Command) : Prop := ∀ width, fits rest width = decide (0 ≤ width)

theorem fits_append {rest : List Command} (h : EndsLine rest) (todo : List Command) (width : Int) :
    fits (todo ++ rest) width = fits todo width := by
  fun_induction fits todo width with
  | case1 todo width hw => rw [fits.eq_def, if_pos hw]
  | case2 width hw =>
    rw [List.nil_append, h]
    exact decide_eq_true (Int.not_lt.mp hw)
  | case4 width hw level mode todo parts ih =>
    rw [List.append_assoc] at ih
    rw [List.cons_append, fits.eq_def, if_neg hw]
    exact ih
  | case8 width hw level mode todo soft hard hbreak =>
    rw [List.cons_append, fits.eq_def, if_neg hw]
    exact if_pos hbreak
  | case9 width hw level mode todo soft hard hbreak ih =>
    rw [List.cons_append, fits.eq_def, if_neg hw]
    exact (if_neg hbreak).trans ih
  | _ =>
    rw [List.cons_append, fits.eq_def, if_neg ‹_›]
    assumption

theorem endsLine_linebreak (level : Nat) (soft hard : Bool) (rest : List Command) :
    EndsLine (⟨level, .broken, .linebreak soft hard⟩ :: rest) := by
  intro width
  rw [fits.eq_def]
  by_cases hw : width < 0
  · rw [if_pos hw, decide_eq_false (by omega)]
  · rw [if_neg hw, decide_eq_true (by omega)]
    exact if_pos (.inl rfl)

theorem endsLine_concat {level : Nat} {mode : Mode} {parts : List Doc} {rest : List Command}
    (h : EndsLine (Command.spread level mode parts ++ rest)) :
    EndsLine (⟨level, mode, .concat parts⟩ :: rest) := by
  intro width
  rw [fits.eq_def]
  by_cases hw : width < 0
  · rw [if_pos hw, decide_eq_false (by omega)]
  · rw [if_neg hw]
    exact h width

theorem endsLine_hardline (level : Nat) (rest : List Command) :
    EndsLine (⟨level, .broken, Doc.hardline⟩ :: rest) :=
  endsLine_concat (endsLine_linebreak level false true _)

/-! ## a part of a run -/

namespace Page
variable {o : Options} {p q : Page} {rest : List Command} {text : List Char}

/-- a page with more commands below those on its stack -/
def before (p : Page) (rest : List Command) : Page := ⟨p.written, p.column, p.todo ++ rest⟩

/-- a page with a text above what is written on it -/
def above (p : Page) (text : List Char) : Page := ⟨p.written ++ text, p.column, p.todo⟩

theorem Step.before (hrest : EndsLine rest) (h : Step o p q) :
    Step o (p.before rest) (q.before rest) := by
  cases h with
  | @concat w c level mode parts todo =>
    have happ : Command.spread level mode parts ++ (todo ++ rest) =
      (Command.spread level mode parts ++ todo) ++ rest := (List.append_assoc _ _ _).symm
    rw [Page.before, Page.before, ← happ]
    exact .concat
  | fitted h => exact .fitted ((fits_append hrest _ _).trans h)
  | unfitted h => exact .unfitted ((fits_append hrest _ _).trans h)
  | text => exact .text
  | indent => exact .indent
  | inherited => exact .inherited
  | marked => exact .marked
  | ifBreak => exact .ifBreak
  | softline => exact .softline
  | space => exact .space
  | newline h => exact .newline h
  | breakParent => exact .breakParent

theorem run_before (hrest : EndsLine rest) (o : Options) (p : Page) :
    (p.before rest).run o = ((p.run o).before rest).run o := by
  induction p using induct_step o with
  | stop p hp => rw [run_none hp]
  | step p q hq ih =>
    have hstep := (step_iff.mp hq).before hrest
    rw [run_some hq, run_some hstep.step_eq]
    exact ih

theorem Step.above (htext : trimmed text = text) (h : Step o p q) :
    Step o (p.above text) (q.above text) := by
  cases h with
  | @text w c level mode s todo =>
    rw [Page.above, Page.above, List.append_assoc]
    exact .text
  | @newline w c level mode soft hard todo h =>
    rw [Page.above, Page.above, List.append_assoc, List.append_assoc, ← trimmed_append htext]
    exact .newline h
  | fitted h => exact .fitted h
  | unfitted h => exact .unfitted h
  | concat => exact .concat
  | indent => exact .indent
  | inherited => exact .inherited
  | marked => exact .marked
  | ifBreak => exact .ifBreak
  | softline => exact .softline
  | space => exact .space
  | breakParent => exact .breakParent

theorem above_stop (h : p.step o = none) : (p.above text).step o = none := by
  obtain ⟨w, c, todo⟩ := p
  cases todo with
  | nil => rfl
  | cons command todo => cases h

theorem run_above (htext : trimmed text = text) (o : Options) (p : Page) :
    (p.above text).run o = (p.run o).above text := by
  induction p using induct_step o with
  | stop p hp => rw [run_none hp, run_none (above_stop hp)]
  | step p q hq ih =>
    have hstep := (step_iff.mp hq).above htext
    rw [run_some hq, run_some hstep.step_eq]
    exact ih

theorem todo_run (o : Options) (p : Page) : (p.run o).todo = [] := by
  induction p using induct_step o with
  | stop p hp =>
    obtain ⟨w, c, todo⟩ := p
    rw [run_none hp]
    cases todo with
    | nil => rfl
    | cons command todo => cases hp
  | step p q hq ih =>
    rw [run_some hq]
    exact ih

theorem run_concat (o : Options) (w : List Char) (c level : Nat) (mode : Mode) (parts : List Doc)
    (rest : List Command) : (Page.mk w c (⟨level, mode, .concat parts⟩ :: rest)).run o =
      (Page.mk w c (Command.spread level mode parts ++ rest)).run o :=
  run_some rfl

theorem run_hardline (o : Options) (w : List Char) (c : Nat) (rest : List Command) :
    (Page.mk w c (⟨0, .broken, Doc.hardline⟩ :: rest)).run o =
      (Page.mk (o.endOfLine.newline.reverse ++ trimmed w) 0 rest).run o := by
  have hnewline : Step o
      ⟨w, c, ⟨0, .broken, .linebreak false true⟩ :: ⟨0, .broken, .breakParent⟩ :: rest⟩
      ⟨List.replicate (0 * o.tabWidth) ' ' ++ (o.endOfLine.newline.reverse ++ trimmed w),
        0 * o.tabWidth, ⟨0, .broken, .breakParent⟩ :: rest⟩ := .newline (.inl rfl)
  rw [Nat.zero_mul] at hnewline
  rw [Doc.hardline, run_concat]
  exact (run_some hnewline.step_eq).trans (run_some Step.breakParent.step_eq)

theorem trimmed_newline (e : EndOfLine) (w : List Char) :
    trimmed (e.newline.reverse ++ w) = e.newline.reverse ++ w := by
  cases e <;> rfl

end Page

/-! ## statements -/

/-- the commands for top-level statements, with their groups marked -/
def statementCommands (ds : List Doc) : List Command :=
  Command.spread 0 .broken
    ((ds.map Doc.propagateBreaks).intersperse (.concat [Doc.hardline, Doc.hardline]))

theorem statementCommands_append {ds es : List Doc} (hd : ds ≠ []) (he : es ≠ []) :
    statementCommands (ds ++ es) = statementCommands ds ++
      ⟨0, .broken, .concat [Doc.hardline, Doc.hardline]⟩ :: statementCommands es := by
  have hds : ds.map Doc.propagateBreaks ≠ [] := (List.map_eq_nil_iff.not).mpr hd
  have hes : es.map Doc.propagateBreaks ≠ [] := (List.map_eq_nil_iff.not).mpr he
  rw [statementCommands, List.map_append, intersperse_append hds hes, Command.spread,
    List.map_append, List.map_cons]
  rfl

namespace Page

theorem run_start_module (o : Options) (ds : List Doc) :
    (start (Rule.moduleDoc ds)).run o =
      (Page.mk [] 0 (statementCommands ds ++ [⟨0, .broken, Doc.hardline⟩])).run o := by
  have hpropagate : (Rule.moduleDoc ds).propagateBreaks = .concat [.concat
      ((ds.map Doc.propagateBreaks).intersperse (.concat [Doc.hardline, Doc.hardline])),
      Doc.hardline] := by
    rw [Rule.moduleDoc, Doc.propagateBreaks_concat, Doc.join, List.map_cons,
      Doc.propagateBreaks_concat, map_intersperse]
    rfl
  rw [start, hpropagate, run_concat]
  exact run_concat o [] 0 0 .broken _ _

/-- the page of some statements alone, before the line break at the end -/
def statements (o : Options) (ds : List Doc) : Page := (Page.mk [] 0 (statementCommands ds)).run o

theorem run_statements (o : Options) (ds : List Doc) {rest : List Command} (h : EndsLine rest) :
    (Page.mk [] 0 (statementCommands ds ++ rest)).run o =
      (Page.mk (statements o ds).written (statements o ds).column rest).run o := by
  have htodo : (statements o ds).before rest =
      ⟨(statements o ds).written, (statements o ds).column, rest⟩ := by
    rw [before, statements, todo_run]
    rfl
  rw [← htodo]
  exact run_before h o (Page.mk [] 0 (statementCommands ds))

end Page

open Page

theorem Rule.layout_moduleDoc (o : Options) (ds : List Doc) :
    (Rule.moduleDoc ds).layout o =
      (trimmed (statements o ds).written).reverse ++ o.endOfLine.newline := by
  rw [Doc.layout, run_start_module, run_statements o ds (endsLine_hardline 0 []), run_hardline,
    run_none rfl, List.reverse_append, List.reverse_reverse]

theorem Rule.layout_moduleDoc_append (o : Options) {ds es : List Doc} (hd : ds ≠ []) (he : es ≠ []) :
    (Rule.moduleDoc (ds ++ es)).layout o =
      (Rule.moduleDoc ds).layout o ++ o.endOfLine.newline ++ (Rule.moduleDoc es).layout o := by
  let newline := o.endOfLine.newline.reverse
  -- what stands above the first of the statements `es`
  let text := newline ++ (newline ++ trimmed (statements o ds).written)
  have htext : trimmed text = text := trimmed_newline _ _
  have hends : EndsLine (⟨0, .broken, .concat [Doc.hardline, Doc.hardline]⟩ ::
      (statementCommands es ++ [⟨0, .broken, Doc.hardline⟩])) :=
    endsLine_concat (endsLine_hardline 0 _)
  have hbetween : (Page.mk (statements o ds).written (statements o ds).column
      (⟨0, .broken, .concat [Doc.hardline, Doc.hardline]⟩ ::
        (statementCommands es ++ [⟨0, .broken, Doc.hardline⟩]))).run o =
      (Page.mk text 0 (statementCommands es ++ [⟨0, .broken, Doc.hardline⟩])).run o := by
    rw [run_concat]
    refine (run_hardline o _ _ _).trans ((run_hardline o _ _ _).trans ?_)
    rw [trimmed_newline]
    rfl
  have hrest : (Page.mk text 0 (statementCommands es ++ [⟨0, .broken, Doc.hardline⟩])).run o =
      ((start (Rule.moduleDoc es)).run o).above text := by
    rw [run_start_module]
    exact run_above htext o ⟨[], 0, _⟩
  rw [Doc.layout, run_start_module, statementCommands_append hd he, List.append_assoc,
    List.cons_append, run_statements o ds hends, hbetween, hrest, above, List.reverse_append,
    List.reverse_append, List.reverse_append, layout_moduleDoc, List.reverse_reverse]
  rfl

namespace Node
variable {offset : Int} {body : List Node}

/-- the statements of a module do not depend on the module they are in -/
theorem printAllBelow_module (offset offset' : Int) (body body' ns : List Node) :
    printAllBelow [] (module offset body) "body" ns =
      printAllBelow [] (module offset' body') "body" ns := by
  rw [printAllBelow_eq_map, printAllBelow_eq_map]
  apply List.map_congr_left
  intro n _
  rw [printBelow_congr n [module offset body] [module offset' body'] fun _ => rfl]
  rfl

theorem printAllBelow_append (above : List Node) (owner : Node) (field : String)
    (ns ms : List Node) : printAllBelow above owner field (ns ++ ms) =
      printAllBelow above owner field ns ++ printAllBelow above owner field ms := by
  rw [printAllBelow_eq_map, printAllBelow_eq_map, printAllBelow_eq_map, List.map_append]

/-- the statements of two modules, printed as one module, are laid out as in the two modules, with
an empty line between them -/
theorem render_append {body₁ body₂ : List Node} {offset₁ offset₂ : Int} {d₁ d₂ : Doc}
    (hne₁ : body₁ ≠ []) (hne₂ : body₂ ≠ []) (h₁ : (module offset₁ body₁).print = .ok d₁)
    (h₂ : (module offset₂ body₂).print = .ok d₂) (offset : Int) :
    ∃ d, (module offset (body₁ ++ body₂)).print = .ok d ∧ ∀ o : Options,
      d.render o = d₁.render o ++ String.ofList o.endOfLine.newline ++ d₂.render o := by
  obtain ⟨ds₁, hds₁, rfl⟩ := (print_module hne₁).mp h₁
  obtain ⟨ds₂, hds₂, rfl⟩ := (print_module hne₂).mp h₂
  have hne : body₁ ++ body₂ ≠ [] := List.append_ne_nil_of_left_ne_nil hne₁ _
  have hds : printAllBelow [] (module offset (body₁ ++ body₂)) "body" (body₁ ++ body₂) =
      (ds₁ ++ ds₂).map .ok := by
    rw [printAllBelow_append, printAllBelow_module offset offset₁ _ body₁,
      printAllBelow_module offset offset₂ _ body₂, hds₁, hds₂, List.map_append]
  have hnil₁ : ds₁ ≠ [] := by
    rintro rfl
    exact printAllBelow_ne_nil hne₁ hds₁
  have hnil₂ : ds₂ ≠ [] := by
    rintro rfl
    exact printAllBelow_ne_nil hne₂ hds₂
  refine ⟨_, (print_module hne).mpr ⟨_, hds, rfl⟩, ?_⟩
  intro o
  rw [Doc.render, Doc.render, Doc.render, Rule.layout_moduleDoc_append o hnil₁ hnil₂,
    String.ofList_append, String.ofList_append]

/-- a dictionary that does not fit on the page, and a name -/
theorem render_append_dict : ∃ d,
    (module 0 [.expression 0 (.dict 0 [.ident 1 "a"] [.ident 4 "b"]),
      .expression 8 (.ident 8 "c")]).print = .ok d ∧
    d.render { printWidth := 3 } = "\x7b\n    a: b\n\x7d\n\nc\n" := by
  have h₁ : (module 0 [.expression 0 (.dict 0 [.ident 1 "a"] [.ident 4 "b"])]).print = .ok _ := rfl
  have h₂ : (module 0 [.expression 8 (.ident 8 "c")]).print = .ok _ := rfl
  obtain ⟨d, hd, hrender⟩ := render_append (List.cons_ne_nil _ _) (List.cons_ne_nil _ _) h₁ h₂ 0
  refine ⟨d, hd, ?_⟩
  rw [hrender]
  decide +kernel

end Node

end Reflow
