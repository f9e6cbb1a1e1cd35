import Reflow.Proofs.ReadExpressions
import Reflow.Source.Statement

/-!
# Statements as they are read

The tokens of a text stand one after the other.  Readers of statements take some of them from the
front, tokens of layout too, so that those that are left still do.  Hence the parameters and the
defaults of every function stand in order.

* `Ordered`         tokens that stand one after the other;
* `Parameters.Fits.sound_of_ordered`   parameters and defaults that are read from such tokens;
* `simple_spec`     simple statements, which have no tokens of layout inside;
* `block_spec`, `compound_spec`   blocks and statements, given how those inside are read;
* `statements_spec` all statements of a text.
-/

set_option mvcgen.warning false

open Std.Do

namespace Reflow.Source

open Reader

/-- of two tokens, neither of them one of layout, the first one stands before the other -/
def Ordered (starts : List Int) (ts : List Token) : Prop :=
  ts.Pairwise fun t u => t.lexeme.isLayout = false → u.lexeme.isLayout = false →
    t.place.offset starts < u.place.offset starts

namespace Ordered
variable {starts : List Int} {ts rest : List Token} {ps : List Position}

@[grind →]
theorem suffix (h : Ordered starts ts) (hrest : rest <:+ ts) : Ordered starts rest :=
  List.Pairwise.sublist hrest.sublist h

@[grind →]
theorem passes (h : Ordered starts ts) (hpasses : Passes ts rest ps) : Ordered starts rest := by
  obtain ⟨run, rfl, -, -⟩ := hpasses
  exact h.suffix (List.suffix_append run rest)

/-- places that are passed stand one after the other -/
theorem places (h : Ordered starts ts) (hpasses : Passes ts rest ps) :
    (ps.map (Position.offset starts)).Pairwise (· < ·) := by
  obtain ⟨run, rfl, hrun, hps⟩ := hpasses
  have hordered : Ordered starts run := (List.pairwise_append.mp h).1
  have hoffsets : (run.map fun t => t.place.offset starts).Pairwise (· < ·) := by
    rw [List.pairwise_map]
    exact List.Pairwise.imp_of_mem (fun ht hu hlt => hlt (hrun _ ht) (hrun _ hu)) hordered
  have hsub := hps.map (Position.offset starts)
  rw [List.map_map] at hsub
  exact hoffsets.sublist hsub

end Ordered

theorem entryOffsets_eq (starts : List Int) (es : List Entry) :
    Parameters.entryOffsets starts es = (es.flatMap entryPlaces).map (Position.offset starts) := by
  rw [Parameters.entryOffsets, List.map_flatMap]
  congr 1
  funext e
  obtain ⟨p, default?⟩ := e
  cases default? <;> rfl

/-- parameters that fit their defaults and stand in order with these, in which it is so as well -/
structure Parameters.Sound (starts : List Int) (ps : Parameters) : Prop where
  shaped : ps.Shaped
  inOrder : ps.InOrder starts
  trees : ∀ t ∈ ps.trees, t.Sound starts

theorem Parameters.Fits.sound_of_ordered {starts : List Int} {ts rest : List Token}
    {ps : Parameters} (h : ps.Fits starts ts rest) (hts : Ordered starts ts) :
    ps.Sound starts where
  shaped := h.shaped
  inOrder := by
    constructor
    · rw [entryOffsets_eq]
      exact (hts.places h.positional).isChain
    · rw [entryOffsets_eq]
      exact (hts.places h.byName).isChain
  trees := h.sound

theorem Parameters.sound_none (starts : List Int) :
    (Parameters.mk [] [] none [] [] none []).Sound starts where
  shaped := by decide
  inOrder := ⟨.nil, .nil⟩
  trees := nofun

theorem Tree.sound_function {starts : List Int} {pos : Position} {id : String}
    {decorated generic returns : Bool} {ps : Parameters} {body : List Tree}
    {typeComment? : Option String} (hps : ps.Sound starts) (hbody : ∀ t ∈ body, t.Sound starts) :
    (function pos id decorated generic returns ps body typeComment?).Sound starts := by
  refine sound_iff.mpr ⟨?_, List.forall_mem_append.mpr ⟨hps.trees, hbody⟩⟩
  rintro _ ⟨⟩
  exact ⟨hps.shaped, hps.inOrder⟩

/-! ## patterns -/

namespace Pattern

theorem number_spec (ts : List Token) :
    ⦃fun us => ⌜us = ts⌝⦄ number ⦃⇓? _ us => ⌜Passes ts us []⌝⦄ := by
  mvcgen [number]
  all_goals grind [Lexeme.isLayout]

theorem path_spec (ts : List Token) :
    ⦃fun us => ⌜us = ts⌝⦄ path ⦃⇓? _ us => ⌜Passes ts us []⌝⦄ := by
  have hmembers := allWhile_spec (isLayout_of_beq (m := .mark .dot) rfl) (skipping_spec name_passes)
  mvcgen [path, hmembers]
  grind

theorem constant_spec (ts : List Token) :
    ⦃fun us => ⌜us = ts⌝⦄ constant ⦃⇓? _ us => ⌜Passes ts us []⌝⦄ := by
  have hnumber := number_spec
  have htexts := Levels.skips_spec Levels.isLayout_of_isText
  mvcgen [constant, hnumber, htexts]
  all_goals grind [Lexeme.isLayout]

section
variable {inner : Reader Unit}

theorem listed_spec {item : Reader Unit}
    (hitem : ∀ ts, ⦃fun us => ⌜us = ts⌝⦄ item ⦃⇓? _ us => ⌜Passes ts us [] ∧ True⌝⦄) (b : Bracket)
    (ts : List Token) :
    ⦃fun us => ⌜us = ts⌝⦄ listed item b ⦃⇓? _ us => ⌜Passes ts us []⌝⦄ := by
  have hitems := separated_spec (f := fun _ => []) starts hitem
  mvcgen [listed, hitems]
  all_goals grind

variable (hinner : ∀ ts, ⦃fun us => ⌜us = ts⌝⦄ inner ⦃⇓? _ us => ⌜Passes ts us []⌝⦄)
include hinner

theorem item_spec (ts : List Token) :
    ⦃fun us => ⌜us = ts⌝⦄ item inner ⦃⇓? _ us => ⌜Passes ts us [] ∧ True⌝⦄ := by
  refine triple_of fun Q hQ => ?_
  mvcgen [item, hinner]
  all_goals grind

theorem argument_spec (ts : List Token) :
    ⦃fun us => ⌜us = ts⌝⦄ argument inner ⦃⇓? _ us => ⌜Passes ts us [] ∧ True⌝⦄ := by
  refine triple_of fun Q hQ => ?_
  mvcgen [argument, hinner]
  all_goals grind

theorem entry_spec (ts : List Token) :
    ⦃fun us => ⌜us = ts⌝⦄ entry inner ⦃⇓? _ us => ⌜Passes ts us [] ∧ True⌝⦄ := by
  have hconstant := constant_spec
  have hpath := path_spec
  refine triple_of fun Q hQ => ?_
  mvcgen [entry, hconstant, hpath, hinner]
  all_goals grind

theorem closed_spec (ts : List Token) :
    ⦃fun us => ⌜us = ts⌝⦄ closed inner ⦃⇓? _ us => ⌜Passes ts us [] ∧ True⌝⦄ := by
  have hconstant := constant_spec
  have hpath := path_spec
  have hitems := listed_spec (item_spec hinner)
  have hentries := listed_spec (entry_spec hinner)
  have harguments := listed_spec (argument_spec hinner)
  refine triple_of fun Q hQ => ?_
  mvcgen [closed, hconstant, hpath, hitems, hentries, harguments]
  all_goals grind

theorem outer_spec (ts : List Token) :
    ⦃fun us => ⌜us = ts⌝⦄ outer inner ⦃⇓? _ us => ⌜Passes ts us []⌝⦄ := by
  have hclosed := closed_spec hinner
  have hothers := allWhile_spec (isLayout_of_beq (m := .mark (.operator .bitOr)) rfl)
    (skipping_spec hclosed)
  mvcgen [outer, hclosed, hothers]
  all_goals grind

end

theorem upTo_spec (depth : Nat) (ts : List Token) :
    ⦃fun us => ⌜us = ts⌝⦄ upTo depth ⦃⇓? _ us => ⌜Passes ts us []⌝⦄ := by
  induction depth generalizing ts with
  | zero => exact stuck_spec
  | succ depth ih => exact outer_spec ih ts

end Pattern

theorem patterns_spec (ts : List Token) :
    ⦃fun us => ⌜us = ts⌝⦄ patterns ⦃⇓? _ us => ⌜Passes ts us []⌝⦄ := by
  have hitems := separated_spec (f := fun _ => []) Pattern.starts
    (Pattern.item_spec (Pattern.upTo_spec (ts.length + 1)))
  have hread :
      ⦃fun us => ⌜us = ts⌝⦄
      (do
        let _ ← separated Pattern.starts (Pattern.item (Pattern.upTo (ts.length + 1)))
        return () : Reader Unit)
      ⦃⇓? _ us => ⌜Passes ts us []⌝⦄ := by
    mvcgen [hitems]
    grind
  exact triple_congr hread rfl

/-! ## simple statements -/

section
variable {starts : List Int}

/-- an assignment of the last of several values to the others -/
theorem sound_assign {pos : Position} {first : Tree} {others : List Tree}
    (hfirst : first.Sound starts) (hothers : ∀ t ∈ others, t.Sound starts) :
    (Tree.assign pos (storedAll (first :: others).dropLast)
      (others.getLast?.getD first)).Sound starts := by
  have hall : ∀ t ∈ first :: others, t.Sound starts := List.forall_mem_cons.mpr ⟨hfirst, hothers⟩
  have hlast : (others.getLast?.getD first).Sound starts := by
    cases hget : others.getLast? with
    | none => exact hfirst
    | some t => exact hothers t (List.mem_of_getLast? hget)
  have htargets := Tree.sound_storedAll fun t ht => hall t (List.dropLast_subset _ ht)
  exact (Tree.sound_of_not_function rfl).mpr (List.forall_mem_cons.mpr ⟨hlast, htargets⟩)

theorem assignment_spec (ts : List Token) :
    ⦃fun us => ⌜us = ts⌝⦄ assignment ⦃⇓? t us => ⌜Passes ts us [] ∧ t.Sound starts⌝⦄ := by
  have hvalue := @value_spec starts
  have hexpression := @expression_spec starts
  have hothers := allWhile_spec (isLayout_of_beq (m := .mark .equals) rfl)
    (skipping_spec (sound_spec hvalue))
  mvcgen [assignment, hvalue, hexpression, hothers]
  all_goals
    grind [Lexeme.isLayout, sound_assign, Tree.sound_stored, Tree.params?, Tree.children]

theorem dottedName_spec (ts : List Token) :
    ⦃fun us => ⌜us = ts⌝⦄ dottedName ⦃⇓? _ us => ⌜Passes ts us [] ∧ True⌝⦄ := by
  have hmembers := allWhile_spec (isLayout_of_beq (m := .mark .dot) rfl) (skipping_spec name_passes)
  mvcgen [dottedName, hmembers]
  grind

section
variable {α : Type} {p : Reader α} {Q : α → Prop}
  (hp : ∀ ts, ⦃fun us => ⌜us = ts⌝⦄ p ⦃⇓? a us => ⌜Passes ts us [] ∧ Q a⌝⦄)
include hp

theorem renamed_spec (ts : List Token) :
    ⦃fun us => ⌜us = ts⌝⦄ renamed p ⦃⇓? _ us => ⌜Passes ts us [] ∧ True⌝⦄ := by
  mvcgen [renamed, hp]
  all_goals grind

theorem commas_spec (ts : List Token) :
    ⦃fun us => ⌜us = ts⌝⦄ commas p ⦃⇓? _ us => ⌜Passes ts us [] ∧ True⌝⦄ := by
  have hothers := allWhile_spec (isLayout_of_beq (m := .mark .comma) rfl) (skipping_spec hp)
  mvcgen [commas, hp, hothers]
  grind

end

theorem importFrom_spec (ts : List Token) :
    ⦃fun us => ⌜us = ts⌝⦄ importFrom ⦃⇓? _ us => ⌜Passes ts us []⌝⦄ := by
  have hmore (l : Lexeme) (h : (l == .mark .dot || l == .mark .ellipsis) = true) :
      l.isLayout = false := by
    rcases Bool.or_eq_true_iff.mp h with h | h <;> rw [eq_of_beq h] <;> rfl
  have hdots := Levels.skips_spec hmore
  have hdottedName := dottedName_spec
  have hnames := separated_spec (f := fun _ => []) Lexeme.isName (renamed_spec name_passes)
  have hcommas := commas_spec (renamed_spec name_passes)
  refine triple_of fun Q hQ => ?_
  mvcgen [importFrom, hdots, hdottedName, hnames, hcommas]
  all_goals grind

theorem simple_spec (ts : List Token) :
    ⦃fun us => ⌜us = ts⌝⦄ simple ⦃⇓? t us => ⌜Passes ts us [] ∧ t.Sound starts⌝⦄ := by
  have hassignment := @assignment_spec starts
  have hexpression := @expression_spec starts
  have hexpressions := @expressions_spec starts
  have htargets := @targets_spec starts
  have hnames := commas_spec name_passes
  have himports := commas_spec (renamed_spec dottedName_spec)
  have himportFrom := importFrom_spec
  refine triple_of fun Q hQ => ?_
  mvcgen [simple, hassignment, hexpression, hexpressions, htargets, hnames, himports, himportFrom]
  all_goals grind [Lexeme.isLayout, Tree.params?, Tree.children]

theorem furtherSimple_spec (ts : List Token) :
    ⦃fun us => ⌜us = ts⌝⦄ furtherSimple
    ⦃⇓? t? us => ⌜Passes ts us [] ∧ ∀ t, t? = some t → t.Sound starts⌝⦄ := by
  have hsimple := @simple_spec starts
  mvcgen [furtherSimple, hsimple]
  all_goals grind

theorem line_spec :
    ⦃fun us => ⌜Ordered starts us⌝⦄ line
    ⦃⇓? r us => ⌜Ordered starts us ∧ ∀ t ∈ r, t.Sound starts⌝⦄ := by
  have hsimple := @simple_spec starts
  have hothers := all_spec (@furtherSimple_spec starts)
  have hnewline := expect_suffix .newline
  mvcgen [line, hsimple, hothers, hnewline]
  grind

end

/-! ## the heads of statements with blocks -/

section
variable {starts : List Int}

theorem enclosedParameters_spec :
    ⦃fun us => ⌜Ordered starts us⌝⦄ enclosedParameters
    ⦃⇓? ps us => ⌜Ordered starts us ∧ ps.Sound starts⌝⦄ := by
  have hparameters := parameters_spec (@expression_spec starts)
    fun _ h => (Option.mem_some_iff.mp h).symm ▸ @annotated_spec starts
  mvcgen [enclosedParameters, hparameters]
  all_goals grind [Parameters.sound_none, Parameters.Fits.sound_of_ordered, Parameters.Fits]

@[spec]
theorem headLine_spec (ts : List Token) :
    ⦃fun us => ⌜us = ts⌝⦄ headLine ⦃⇓? _ us => ⌜us <:+ ts ∧ (Starts ts → Takes ts us)⌝⦄ := by
  mvcgen [headLine]
  grind

theorem withItem_spec (ts : List Token) :
    ⦃fun us => ⌜us = ts⌝⦄ withItem ⦃⇓? _ us => ⌜Passes ts us [] ∧ True⌝⦄ := by
  have hexpression := @expression_spec []
  have htarget := @target_spec []
  mvcgen [withItem, hexpression, htarget]
  all_goals grind

theorem blockNext_spec (ts : List Token) :
    ⦃fun us => ⌜us = ts⌝⦄ blockNext ⦃⇓? _ us => ⌜us = ts⌝⦄ := by
  mvcgen [blockNext]
  all_goals grind

theorem enclosedItems_spec :
    ⦃fun us => ⌜Ordered starts us⌝⦄ enclosedItems ⦃⇓? _ us => ⌜Ordered starts us⌝⦄ := by
  have hitems := separated_spec (f := fun _ => []) Lexeme.startsExpression withItem_spec
  have hnext := blockNext_spec
  mvcgen [enclosedItems, hitems, hnext]
  all_goals grind

theorem plainItems_spec :
    ⦃fun us => ⌜Ordered starts us⌝⦄ plainItems ⦃⇓? _ us => ⌜Ordered starts us⌝⦄ := by
  have hitems := commas_spec withItem_spec
  have hnext := blockNext_spec
  mvcgen [plainItems, hitems, hnext]
  all_goals grind

theorem decorator_spec :
    ⦃fun us => ⌜Ordered starts us⌝⦄ decorator ⦃⇓? _ us => ⌜Ordered starts us ∧ True⌝⦄ := by
  have hexpression := @namedExpression_spec starts
  have hnewline := expect_suffix .newline
  mvcgen [decorator, hexpression, hnewline]
  grind

end

/-! ## statements with blocks -/

section
variable {starts : List Int} {statement : Reader (List Tree)}
  (hstatement : ⦃fun us => ⌜Ordered starts us⌝⦄ statement
    ⦃⇓? r us => ⌜Ordered starts us ∧ ∀ t ∈ r, t.Sound starts⌝⦄)
include hstatement

theorem indented_spec :
    ⦃fun us => ⌜Ordered starts us⌝⦄ indented statement
    ⦃⇓? r us => ⌜Ordered starts us ∧ ∀ t ∈ r, t.Sound starts⌝⦄ := by
  have hothers := allWhile_keeps (· != .dedent) hstatement
  have hdedent := expect_suffix .dedent
  mvcgen [indented, hstatement, hothers, hdedent]
  all_goals grind [List.mem_flatten]

theorem block_spec (owner : String) (n : Nat) :
    ⦃fun us => ⌜Ordered starts us⌝⦄ block statement owner n
    ⦃⇓? r us => ⌜Ordered starts us ∧ ∀ t ∈ r, t.Sound starts⌝⦄ := by
  have hindented := indented_spec hstatement
  have hline := @line_spec starts
  have hnewline := accept_suffix .newline
  have hindent := accept_suffix .indent
  mvcgen [block, hindented, hline, hnewline, hindent]
  all_goals grind

theorem blockAfter_spec (w : Reserved) :
    ⦃fun us => ⌜Ordered starts us⌝⦄ blockAfter? statement w
    ⦃⇓? r? us => ⌜Ordered starts us ∧ ∀ t ∈ r?.getD [], t.Sound starts⌝⦄ := by
  have hblock := block_spec hstatement
  mvcgen [blockAfter?, hblock]
  all_goals grind

theorem function_spec (decorated : Bool) :
    ⦃fun us => ⌜Ordered starts us⌝⦄ function statement decorated
    ⦃⇓? t us => ⌜Ordered starts us ∧ t.Sound starts⌝⦄ := by
  have hparameters := @enclosedParameters_spec starts
  have hexpression := @expression_spec starts
  have hblock := block_spec hstatement
  mvcgen [function, hexpression, hparameters, hblock]
  all_goals grind [Tree.sound_function]

theorem classDefinition_spec (decorated : Bool) :
    ⦃fun us => ⌜Ordered starts us⌝⦄ classDefinition statement decorated
    ⦃⇓? t us => ⌜Ordered starts us ∧ t.Sound starts⌝⦄ := by
  have harguments := @arguments_spec starts
  have hblock := block_spec hstatement
  mvcgen [classDefinition, harguments, hblock]
  all_goals grind [Levels.SoundArguments, Tree.params?, Tree.children]

theorem forLoop_spec :
    ⦃fun us => ⌜Ordered starts us⌝⦄ forLoop statement
    ⦃⇓? t us => ⌜Ordered starts us ∧ t.Sound starts⌝⦄ := by
  have htargets := @targets_spec starts
  have hexpressions := @expressions_spec starts
  have hblock := block_spec hstatement
  have helse := blockAfter_spec hstatement
  mvcgen [forLoop, htargets, hexpressions, hblock, helse]
  all_goals grind [Tree.params?, Tree.children]

theorem withBlock_spec :
    ⦃fun us => ⌜Ordered starts us⌝⦄ withBlock statement ⦃⇓? _ us => ⌜Ordered starts us⌝⦄ := by
  have hitems := orElse_spec (@enclosedItems_spec starts) plainItems_spec
  have hblock := block_spec hstatement
  mvcgen [withBlock, hitems, hblock]
  all_goals grind

theorem guarded_spec (word : String) :
    ⦃fun us => ⌜Ordered starts us⌝⦄ guarded statement word
    ⦃⇓? _ us => ⌜Ordered starts us ∧ True⌝⦄ := by
  have hcondition := @namedExpression_spec starts
  have hblock := block_spec hstatement
  mvcgen [guarded, hcondition, hblock]
  all_goals grind

theorem conditional_spec :
    ⦃fun us => ⌜Ordered starts us⌝⦄ conditional statement ⦃⇓? _ us => ⌜Ordered starts us⌝⦄ := by
  have hguarded := guarded_spec hstatement
  have hothers := allWhile_keeps (· == .reserved .elif) (hguarded "elif")
  have helse := blockAfter_spec hstatement
  mvcgen [conditional, hguarded, hothers, helse]
  all_goals grind

theorem whileLoop_spec :
    ⦃fun us => ⌜Ordered starts us⌝⦄ whileLoop statement ⦃⇓? _ us => ⌜Ordered starts us⌝⦄ := by
  have hguarded := guarded_spec hstatement
  have helse := blockAfter_spec hstatement
  mvcgen [whileLoop, hguarded, helse]
  all_goals grind

theorem handler_spec :
    ⦃fun us => ⌜Ordered starts us⌝⦄ handler statement
    ⦃⇓? _ us => ⌜Ordered starts us ∧ True⌝⦄ := by
  have hrenamed := renamed_spec (sound_spec (@expression_spec starts))
  have hblock := block_spec hstatement
  mvcgen [handler, hrenamed, hblock]
  all_goals grind

theorem tryBlock_spec :
    ⦃fun us => ⌜Ordered starts us⌝⦄ tryBlock statement ⦃⇓? _ us => ⌜Ordered starts us⌝⦄ := by
  have hblock := block_spec hstatement
  have hhandlers := allWhile_keeps (· == .reserved .except) (handler_spec hstatement)
  have hafter := blockAfter_spec hstatement
  mvcgen [tryBlock, hblock, hhandlers, hafter]
  all_goals grind

theorem choiceCase_spec :
    ⦃fun us => ⌜Ordered starts us⌝⦄ choiceCase statement
    ⦃⇓? _ us => ⌜Ordered starts us ∧ True⌝⦄ := by
  have hpatterns := patterns_spec
  have hcondition := @namedExpression_spec starts
  have hblock := block_spec hstatement
  mvcgen [choiceCase, hpatterns, hcondition, hblock]
  all_goals grind

theorem choice_spec :
    ⦃fun us => ⌜Ordered starts us⌝⦄ choice statement
    ⦃⇓? t us => ⌜Ordered starts us ∧ t.Sound starts⌝⦄ := by
  have hdisplayed := @displayed_spec starts
  have hnewline := expect_suffix .newline
  have hindent := accept_suffix .indent
  have hdedent := expect_suffix .dedent
  have hcase := choiceCase_spec hstatement
  have hcases := allWhile_keeps (· == .name "case") hcase
  mvcgen [choice, hdisplayed, hnewline, hindent, hdedent, hcase, hcases]
  all_goals grind [Tree.params?, Tree.children]

theorem choiceOrLine_spec :
    ⦃fun us => ⌜Ordered starts us⌝⦄ choiceOrLine statement
    ⦃⇓? r us => ⌜Ordered starts us ∧ ∀ t ∈ r, t.Sound starts⌝⦄ := by
  have hchoice := choice_spec hstatement
  refine orElse_spec ?_ line_spec
  mvcgen [hchoice]
  grind

theorem asynchronous_spec (decorated : Bool) :
    ⦃fun us => ⌜Ordered starts us⌝⦄ asynchronous statement decorated
    ⦃⇓? t us => ⌜Ordered starts us ∧ t.Sound starts⌝⦄ := by
  have hfunction := function_spec hstatement
  have hfor := forLoop_spec hstatement
  have hwith := withBlock_spec hstatement
  mvcgen [asynchronous, hfunction, hfor, hwith]
  all_goals grind [Tree.params?, Tree.children]

theorem decorated_spec :
    ⦃fun us => ⌜Ordered starts us⌝⦄ decorated statement
    ⦃⇓? t us => ⌜Ordered starts us ∧ t.Sound starts⌝⦄ := by
  have hdecorators := allWhile_keeps (· == .mark (.operator .matMult)) (@decorator_spec starts)
  have hfunction := function_spec hstatement
  have hclass := classDefinition_spec hstatement
  have hasynchronous := asynchronous_spec hstatement
  mvcgen [decorated, hdecorators, hfunction, hclass, hasynchronous]
  all_goals grind

theorem compound_spec :
    ⦃fun us => ⌜Ordered starts us⌝⦄ compound statement
    ⦃⇓? r us => ⌜Ordered starts us ∧ ∀ t ∈ r, t.Sound starts⌝⦄ := by
  have hfunction := function_spec hstatement
  have hclass := classDefinition_spec hstatement
  have hfor := forLoop_spec hstatement
  have hif := conditional_spec hstatement
  have hwhile := whileLoop_spec hstatement
  have hwith := withBlock_spec hstatement
  have htry := tryBlock_spec hstatement
  have hasynchronous := asynchronous_spec hstatement
  have hdecorated := decorated_spec hstatement
  have hchoice := choiceOrLine_spec hstatement
  have hline := @line_spec starts
  mvcgen [compound, hfunction, hclass, hfor, hif, hwhile, hwith, htry, hasynchronous, hdecorated,
    hchoice, hline]
  all_goals grind [Tree.params?, Tree.children]

end

theorem statementUpTo_spec {starts : List Int} (depth : Nat) :
    ⦃fun us => ⌜Ordered starts us⌝⦄ statementUpTo depth
    ⦃⇓? r us => ⌜Ordered starts us ∧ ∀ t ∈ r, t.Sound starts⌝⦄ := by
  induction depth with
  | zero => exact stuck_spec
  | succ depth ih => exact compound_spec ih

/-- if tokens stand one after the other, every function in the statements that are read is regular
-/
theorem statements_spec {starts : List Int} :
    ⦃fun us => ⌜Ordered starts us⌝⦄ statements ⦃⇓? r _ => ⌜∀ t ∈ r, t.Sound starts⌝⦄ := by
  have hall (n : Nat) := allWhile_keeps (· != .finish) (@statementUpTo_spec starts n)
  have hread (n : Nat) :
      ⦃fun us => ⌜Ordered starts us⌝⦄
      (do
        let all ← allWhile (· != .finish) (statementUpTo n)
        return all.flatten : Reader (List Tree))
      ⦃⇓? r _ => ⌜∀ t ∈ r, t.Sound starts⌝⦄ := by
    mvcgen [hall]
    grind [List.mem_flatten]
  rw [triple_iff]
  intro ts
  exact triple_iff.mp (hread (ts.length + 1)) ts

end Reflow.Source
