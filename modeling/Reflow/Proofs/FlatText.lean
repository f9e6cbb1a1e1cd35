import Mathlib.Logic.Relation
import Reflow.Proofs.ForcedBreaks

/-!
# Flat layout

No forced break is ever taken in flat mode.  So what the engine does with a flat group is known from
its document alone: it writes the text of the document on one line, and nothing else.

* `Doc.flatText`          a document on one line;
* `Page.FlatStep`         a step inside a flat document, with the commands `rest` below it;
* `Page.flatSteps`        such steps lead from a flat document to its text;
* `Doc.flat_on_one_line`  what is taken in flat mode, and what becomes of it.
-/

namespace Reflow

namespace Doc

mutual
/-- a document on one line -/
def flatText : Doc → List Char
  | .text s => s.toList
  | .concat parts => flatTexts parts
  | .group contents _ => contents.flatText
  | .indent contents => contents.flatText
  | .ifBreak _ flat => flat.flatText
  | .breakParent => []
  | .linebreak soft _ => if soft then [] else [' ']
def flatTexts : List Doc → List Char
  | [] => []
  | d :: ds => d.flatText ++ flatTexts ds
end

theorem flatTexts_eq (ds : List Doc) : flatTexts ds = ds.flatMap flatText := by
  induction ds with
  | nil => rfl
  | cons d ds ih => rw [flatTexts, ih, List.flatMap_cons]

end Doc

namespace Page
variable {o : Options} {rest : List Command}

/-- all that is on the stack above `rest` is flat -/
def FlatAbove (rest : List Command) (p : Page) : Prop :=
  ∃ flat, p.todo = flat ++ rest ∧ ∀ c ∈ flat, c.mode = .flat

/-- a step that takes a flat command from above `rest`, leaves flat commands there, and writes
nothing but characters behind those that are written -/
structure FlatStep (o : Options) (rest : List Command) (p q : Page) : Prop where
  step : p.step o = some q
  taken : p.todo ≠ rest
  before : FlatAbove rest p
  after : FlatAbove rest q
  written : ∃ cs, p.ink o = .chars cs ∧ q.written = cs.reverse ++ p.written

/-- a step that takes a flat command and puts flat ones in its place -/
theorem Step.flatStep {p q : Page} {command : Command} (new flat : List Command) (h : Step o p q)
    (hp : p.todo = command :: (flat ++ rest)) (hq : q.todo = new ++ (flat ++ rest))
    (hcommand : command.mode = .flat) (hnew : ∀ c ∈ new, c.mode = .flat)
    (hflat : ∀ c ∈ flat, c.mode = .flat) (hink : ∃ cs, p.ink o = .chars cs) :
    FlatStep o rest p q where
  step := h.step_eq
  taken := by
    intro heq
    have hlength := congrArg List.length (hp.symm.trans heq)
    simp only [List.length_cons, List.length_append] at hlength
    omega
  before := ⟨command :: flat, hp, List.forall_mem_cons.mpr ⟨hcommand, hflat⟩⟩
  after := ⟨new ++ flat, hq.trans (List.append_assoc new flat rest).symm,
    List.forall_mem_append.mpr ⟨hnew, hflat⟩⟩
  written := by
    obtain ⟨cs, hcs⟩ := hink
    rcases h.ink_cases with ⟨ds, hds, hw, -⟩ | ⟨n, hn, -⟩
    · exact ⟨ds, hds, hw⟩
    · rw [hcs] at hn
      cases hn

abbrev FlatSteps (o : Options) (rest : List Command) : Page → Page → Prop :=
  Relation.ReflTransGen (FlatStep o rest)

mutual
theorem flatSteps : ∀ (d : Doc), d.forced = false → ∀ (w : List Char) (c level : Nat)
    (flat : List Command), (∀ c ∈ flat, c.mode = .flat) →
    FlatSteps o rest ⟨w, c, ⟨level, .flat, d⟩ :: (flat ++ rest)⟩
      ⟨d.flatText.reverse ++ w, c + d.flatText.length, flat ++ rest⟩
  | .text s, _, _, _, _, flat, hflat =>
    .single (Step.flatStep [] flat .text rfl rfl rfl (List.forall_mem_nil _) hflat ⟨_, rfl⟩)
  | .concat parts, hd, w, c, level, flat, hflat => by
    have hspread : ∀ c ∈ Command.spread level .flat parts, c.mode = .flat :=
      List.forall_mem_map.mpr fun _ _ => rfl
    refine .head ?_ (flatStepsAll parts hd w c level flat hflat)
    exact Step.flatStep _ flat .concat rfl rfl rfl hspread hflat ⟨[], rfl⟩
  | .group contents shouldBreak, hd, w, c, level, flat, hflat => by
    obtain ⟨rfl, hcontents⟩ := Bool.or_eq_false_iff.mp hd
    refine .head ?_ (flatSteps contents hcontents w c level flat hflat)
    exact Step.flatStep [⟨level, .flat, contents⟩] flat .inherited rfl rfl rfl
      (List.forall_mem_singleton.mpr rfl) hflat ⟨[], rfl⟩
  | .indent contents, hd, w, c, level, flat, hflat => by
    refine .head ?_ (flatSteps contents hd w c (level + 1) flat hflat)
    exact Step.flatStep [⟨level + 1, .flat, contents⟩] flat .indent rfl rfl rfl
      (List.forall_mem_singleton.mpr rfl) hflat ⟨[], rfl⟩
  | .ifBreak _ chosen, hd, w, c, level, flat, hflat => by
    refine .head ?_ (flatSteps chosen (Bool.or_eq_false_iff.mp hd).2 w c level flat hflat)
    exact Step.flatStep [⟨level, .flat, chosen⟩] flat .ifBreak rfl rfl rfl
      (List.forall_mem_singleton.mpr rfl) hflat ⟨[], rfl⟩
  | .breakParent, hd, _, _, _, _, _ => nomatch hd
  | .linebreak soft hard, hd, w, c, level, flat, hflat => by
    obtain rfl : hard = false := hd
    refine .single ?_
    cases soft with
    | true =>
      exact Step.flatStep [] flat .softline rfl rfl rfl (List.forall_mem_nil _) hflat ⟨[], rfl⟩
    | false =>
      exact Step.flatStep [] flat .space rfl rfl rfl (List.forall_mem_nil _) hflat ⟨[' '], rfl⟩
theorem flatStepsAll : ∀ (ds : List Doc), Doc.forcedAny ds = false → ∀ (w : List Char)
    (c level : Nat) (flat : List Command), (∀ c ∈ flat, c.mode = .flat) →
    FlatSteps o rest ⟨w, c, Command.spread level .flat ds ++ (flat ++ rest)⟩
      ⟨(Doc.flatTexts ds).reverse ++ w, c + (Doc.flatTexts ds).length, flat ++ rest⟩
  | [], _, _, _, _, _, _ => .refl
  | d :: ds, hd, w, c, level, flat, hflat => by
    obtain ⟨hd, hds⟩ := Bool.or_eq_false_iff.mp hd
    have hrest : ∀ c ∈ Command.spread level .flat ds ++ flat, c.mode = .flat :=
      List.forall_mem_append.mpr ⟨List.forall_mem_map.mpr fun _ _ => rfl, hflat⟩
    have hfirst := flatSteps d hd w c level _ hrest
    have hothers := flatStepsAll ds hds (d.flatText.reverse ++ w)
      (c + d.flatText.length) level flat hflat
    rw [List.append_assoc] at hfirst
    rw [Doc.flatTexts, List.reverse_append, List.length_append, List.append_assoc, ← Nat.add_assoc]
    exact hfirst.trans hothers
end

end Page

open Page in
/-- **Flat layout.**  On every page of a run, what is to be taken in flat mode holds no hard line
break, no `breakParent` and no group that is marked as broken.  When a group is laid out flat, by
whatever way, each step up to the end of its contents takes a flat command and adds characters;
altogether they are the contents on one line. -/
theorem Doc.flat_on_one_line (o : Options) (d : Doc) :
    ∀ ls p, Reached o d ls p →
      (∀ c ∈ p.todo, c.mode = .flat → c.doc.forced = false) ∧
      ∀ level mode contents shouldBreak rest,
        p.todo = ⟨level, mode, .group contents shouldBreak⟩ :: rest →
        p.step o = some { p with todo := ⟨level, .flat, contents⟩ :: rest } →
        FlatSteps o rest { p with todo := ⟨level, .flat, contents⟩ :: rest }
          ⟨contents.flatText.reverse ++ p.written, p.column + contents.flatText.length, rest⟩ := by
  intro ls p h
  refine ⟨h.flatFirst.unforced, ?_⟩
  intro level mode contents shouldBreak rest htodo hstep
  have hforced : contents.forced = false :=
    (h.step hstep).flatFirst.head_unforced rfl
  exact flatSteps contents hforced p.written p.column level [] (List.forall_mem_nil _)

open Page in
open Doc in
/-- a group with an `ifBreak` and another group in it -/
theorem Doc.flat_on_one_line_nested :
    let o : Options := {}
    let contents := concat [text "a", line, group (ifBreak (text ",") (text ";")) false]
    let d := group contents false
    Reached o d {} (start d) ∧
      FlatSteps o [] ⟨[], 0, [⟨0, .flat, contents⟩]⟩ ⟨[';', ' ', 'a'], 3, []⟩ := by
  intro o contents d
  have hfits : fits [⟨0, .flat, contents⟩] 80 = true := by
    have ha : "a".length = 1 := rfl
    have hsemicolon : ";".length = 1 := rfl
    simp [contents, fits.eq_def, Command.spread, line, Mode.choose, ha, hsemicolon]
  have hstep : Step o (start d) ⟨[], 0, [⟨0, .flat, contents⟩]⟩ := .fitted hfits
  exact ⟨.start, (flat_on_one_line o d _ _ .start).2 0 .broken contents false [] rfl hstep.step_eq⟩

end Reflow
