import Reflow.Proofs.ReadParameters
import Reflow.Source.Expression

/-!
# Expressions as they are read

Every reader of expressions takes a run of tokens that do not stand for layout, and gives a tree
that is at the place of one of them and holds no function.  That is so for the readers of one depth
if it is for those of the depth below.

* `Levels.Fit`       the three levels give trees that fit what they take;
* `Levels.fit_outer`, `fit_upTo`   from one depth to the next one, and at every depth;
* `expression_spec` and so on   the forms that statements use.
-/

set_option mvcgen.warning false

open Std.Do

namespace Reflow.Source

open Reader

structure Levels.Fit (starts : List Int) (l : Levels) : Prop where
  expression (ts : List Token) :
    ⦃fun us => ⌜us = ts⌝⦄ l.expression ⦃⇓? t us => ⌜Fits starts ts t us⌝⦄
  disjunction (ts : List Token) :
    ⦃fun us => ⌜us = ts⌝⦄ l.disjunction ⦃⇓? t us => ⌜Fits starts ts t us⌝⦄
  arithmetic (ts : List Token) :
    ⦃fun us => ⌜us = ts⌝⦄ l.arithmetic ⦃⇓? t us => ⌜Fits starts ts t us⌝⦄

/-! ## targets -/

theorem storedAll_eq_map (ts : List Tree) : storedAll ts = ts.map Tree.stored := by
  induction ts with
  | nil => rfl
  | cons t ts ih => rw [storedAll, ih, List.map_cons]

namespace Tree

theorem pos_stored (t : Tree) : t.stored.pos = t.pos := by
  cases t <;> rfl

variable {starts : List Int}

theorem sound_stored {t : Tree} (h : t.Sound starts) : t.stored.Sound starts := by
  have hstored (elts : List Tree) (ih : ∀ s ∈ elts, s.Sound starts → s.stored.Sound starts)
      (helts : ∀ s ∈ elts, s.Sound starts) : ∀ s ∈ storedAll elts, s.Sound starts := by
    intro s hs
    rw [storedAll_eq_map] at hs
    obtain ⟨e, he, rfl⟩ := List.mem_map.mp hs
    exact ih e he (helts e he)
  induction t using Tree.induct_children with
  | step t ih =>
    cases t with
    | tuple pos elts =>
      rw [sound_of_not_function rfl] at h ⊢
      exact hstored elts ih h
    | list pos elts =>
      rw [sound_of_not_function rfl] at h ⊢
      exact hstored elts ih h
    | access pos value attr =>
      rw [sound_of_not_function rfl] at h ⊢
      exact h
    | ident pos id => exact (sound_of_not_function rfl).mpr nofun
    | _ => exact h

theorem sound_storedAll {ts : List Tree} (h : ∀ t ∈ ts, t.Sound starts) :
    ∀ t ∈ storedAll ts, t.Sound starts := by
  intro t ht
  rw [storedAll_eq_map] at ht
  obtain ⟨s, hs, rfl⟩ := List.mem_map.mp ht
  exact sound_stored (h s hs)

end Tree

namespace Levels
variable {inner : Levels} {starts : List Int}

/-! ## items and sequences -/

theorem named_spec (h : inner.Fit starts) (ts : List Token) :
    ⦃fun us => ⌜us = ts⌝⦄ inner.named ⦃⇓? t us => ⌜Fits starts ts t us⌝⦄ := by
  have hexpression := h.expression
  refine triple_of fun Q hQ => ?_
  mvcgen [named, hexpression]
  all_goals grind [Tree.pos, Tree.params?, Tree.children]

theorem starred_spec {unpacked plain : Reader Tree}
    (hunpacked : ∀ ts, ⦃fun us => ⌜us = ts⌝⦄ unpacked ⦃⇓? t us => ⌜Fits starts ts t us⌝⦄)
    (hplain : ∀ ts, ⦃fun us => ⌜us = ts⌝⦄ plain ⦃⇓? t us => ⌜Fits starts ts t us⌝⦄)
    (ts : List Token) :
    ⦃fun us => ⌜us = ts⌝⦄ starred unpacked plain ⦃⇓? t us => ⌜Fits starts ts t us⌝⦄ := by
  refine triple_of fun Q hQ => ?_
  mvcgen [starred, hunpacked, hplain]
  all_goals grind [Tree.pos, Tree.params?, Tree.children]

theorem item_spec (h : inner.Fit starts) (ts : List Token) :
    ⦃fun us => ⌜us = ts⌝⦄ inner.item ⦃⇓? t us => ⌜Fits starts ts t us⌝⦄ :=
  starred_spec h.arithmetic (named_spec h) ts

theorem sequence_spec {item : Reader Tree}
    (hitem : ∀ ts, ⦃fun us => ⌜us = ts⌝⦄ item ⦃⇓? t us => ⌜Fits starts ts t us⌝⦄)
    (ts : List Token) :
    ⦃fun us => ⌜us = ts⌝⦄ sequence item ⦃⇓? t us => ⌜Fits starts ts t us⌝⦄ := by
  have hitems := separated_spec Lexeme.startsItem (placed_spec hitem)
  mvcgen [sequence, hitems]
  all_goals grind [Tree.pos, Tree.params?, Tree.children]

theorem expressions_spec (h : inner.Fit starts) (ts : List Token) :
    ⦃fun us => ⌜us = ts⌝⦄ inner.expressions ⦃⇓? t us => ⌜Fits starts ts t us⌝⦄ :=
  sequence_spec (starred_spec h.arithmetic h.expression) ts

theorem targets_spec (h : inner.Fit starts) (ts : List Token) :
    ⦃fun us => ⌜us = ts⌝⦄ inner.targets ⦃⇓? t us => ⌜Fits starts ts t us⌝⦄ := by
  have hsequence := sequence_spec (starred_spec h.arithmetic h.arithmetic)
  mvcgen [targets, hsequence]
  all_goals grind [Tree.pos_stored, Tree.sound_stored]

theorem yielded_spec (h : inner.Fit starts) (pos : Position) (ts : List Token) :
    ⦃fun us => ⌜us = ts⌝⦄ inner.yielded pos
    ⦃⇓? t us => ⌜Passes ts us [] ∧ t.pos = pos ∧ t.Sound starts⌝⦄ := by
  have hexpression := h.expression
  have hexpressions := expressions_spec h
  mvcgen [yielded, hexpression, hexpressions]
  all_goals grind [Tree.pos, Tree.params?, Tree.children]

/-! ## loops inside expressions -/

theorem clause_spec (h : inner.Fit starts) (ts : List Token) :
    ⦃fun us => ⌜us = ts⌝⦄ inner.clause ⦃⇓? _ us => ⌜Takes ts us ∧ True⌝⦄ := by
  have htargets := targets_spec h
  have hdisjunction := h.disjunction
  have hconditions := allWhile_spec (isLayout_of_beq (m := .reserved .if) rfl)
    (skipping_spec (sound_spec hdisjunction))
  mvcgen [clause, htargets, hdisjunction, hconditions]
  grind

theorem clauses_spec (h : inner.Fit starts) (ts : List Token) :
    ⦃fun us => ⌜us = ts⌝⦄ inner.clauses ⦃⇓? _ us => ⌜Passes ts us []⌝⦄ := by
  have hmore : ∀ l, startsClause l = true → l.isLayout = false := by
    grind [startsClause, Lexeme.isLayout]
  have hclauses := allWhile_spec hmore fun ts _ => clause_spec h ts
  mvcgen [clauses, hclauses]
  grind

/-! ## operands -/

theorem textConstant_fits (pos : Position) (parts : List Lexeme) :
    (textConstant pos parts).pos = pos ∧ (textConstant pos parts).Sound starts := by
  unfold textConstant
  grind [Tree.pos, Tree.params?, Tree.children]

theorem parenthesized_spec (h : inner.Fit starts) (pos : Position) (ts : List Token) :
    ⦃fun us => ⌜us = ts⌝⦄ inner.parenthesized pos
    ⦃⇓? t us => ⌜Passes ts us [] ∧ (t.pos = pos ∨ Passes ts us [t.pos]) ∧ t.Sound starts⌝⦄ := by
  have hyielded := yielded_spec h
  have hitem := item_spec h
  have hitems := items_spec Lexeme.startsItem (placed_spec hitem)
  have hclauses := clauses_spec h
  mvcgen [parenthesized, hyielded, hitem, hitems, hclauses]
  all_goals grind [Tree.pos, Tree.params?, Tree.children]

theorem bracketed_spec (h : inner.Fit starts) (pos : Position) (ts : List Token) :
    ⦃fun us => ⌜us = ts⌝⦄ inner.bracketed pos
    ⦃⇓? t us => ⌜Passes ts us [] ∧ t.pos = pos ∧ t.Sound starts⌝⦄ := by
  have hitem := item_spec h
  have hitems := items_spec Lexeme.startsItem (placed_spec hitem)
  have hclauses := clauses_spec h
  mvcgen [bracketed, hitem, hitems, hclauses]
  all_goals grind [Tree.pos, Tree.params?, Tree.children]

/-- the trees of an entry of a dictionary -/
def SoundEntry (starts : List Int) (e : Option Tree × Tree) : Prop :=
  (∀ t, e.1 = some t → t.Sound starts) ∧ e.2.Sound starts

theorem entry_spec (h : inner.Fit starts) (ts : List Token) :
    ⦃fun us => ⌜us = ts⌝⦄ inner.entry
    ⦃⇓? e us => ⌜Passes ts us [] ∧ SoundEntry starts e⌝⦄ := by
  have hexpression := h.expression
  have harithmetic := h.arithmetic
  mvcgen [entry, hexpression, harithmetic]
  all_goals grind [SoundEntry]

theorem entries_spec (h : inner.Fit starts) (pos : Position) {first : Option Tree × Tree}
    (hfirst : SoundEntry starts first) (ts : List Token) :
    ⦃fun us => ⌜us = ts⌝⦄ inner.entries pos first
    ⦃⇓? t us => ⌜Passes ts us [] ∧ t.pos = pos ∧ t.Sound starts⌝⦄ := by
  have hentries := items_spec (f := fun _ => []) startsEntry (entry_spec h)
  mvcgen [entries, hentries]
  grind [SoundEntry, Tree.pos, Tree.params?, Tree.children]

theorem braced_spec (h : inner.Fit starts) (pos : Position) (ts : List Token) :
    ⦃fun us => ⌜us = ts⌝⦄ inner.braced pos
    ⦃⇓? t us => ⌜Passes ts us [] ∧ t.pos = pos ∧ t.Sound starts⌝⦄ := by
  have hexpression := h.expression
  have hitem := item_spec h
  have hitems := items_spec Lexeme.startsItem (placed_spec hitem)
  have hclauses := clauses_spec h
  have hentry := entry_spec h
  have hentries (first) (hfirst : SoundEntry starts first) := entries_spec h pos hfirst
  refine triple_of fun Q hQ => ?_
  mvcgen [braced, hexpression, hitem, hitems, hclauses, hentry, hentries]
  all_goals grind [SoundEntry, Tree.pos, Tree.params?, Tree.children]

theorem isLayout_of_isText (l : Lexeme) (h : isText l = true) : l.isLayout = false := by
  cases l with
  | text | bytes | formatted => rfl
  | _ => cases h

theorem atom_spec (h : inner.Fit starts) (ts : List Token) :
    ⦃fun us => ⌜us = ts⌝⦄ inner.atom ⦃⇓? t us => ⌜Fits starts ts t us⌝⦄ := by
  have hpart (ts : List Token) (hts : Starts ts) :
      ⦃fun us => ⌜us = ts⌝⦄
      (do
        let part := (← next).lexeme
        skip
        return part : Reader Lexeme)
      ⦃⇓? _ us => ⌜Takes ts us ∧ True⌝⦄ := by
    mvcgen
    grind
  have hparts := allWhile_spec isLayout_of_isText hpart
  have hparenthesized := parenthesized_spec h
  have hbracketed := bracketed_spec h
  have hbraced := braced_spec h
  refine triple_of fun Q hQ => ?_
  mvcgen [atom, hparts, hparenthesized, hbracketed, hbraced]
  all_goals
    grind [Lexeme.isLayout, textConstant_fits, Tree.pos, Tree.params?, Tree.children]

/-! ## calls and what else follows an operand -/

/-- the tree of an argument -/
def argumentTree : Tree ⊕ Keyword → Tree
  | .inl t => t
  | .inr k => k.value

theorem argument_spec (h : inner.Fit starts) (ts : List Token) :
    ⦃fun us => ⌜us = ts⌝⦄ inner.argument
    ⦃⇓? a us => ⌜Passes ts us [] ∧ (argumentTree a).Sound starts⌝⦄ := by
  have hexpression := h.expression
  have hnamed := named_spec h
  mvcgen [argument, hexpression, hnamed]
  all_goals grind [argumentTree, Keyword.value, Tree.params?, Tree.children]

/-- the trees of all arguments of a call -/
def SoundArguments (starts : List Int) (arguments : List Tree × List Keyword) : Prop :=
  (∀ t ∈ arguments.1, t.Sound starts) ∧ ∀ k ∈ arguments.2, k.value.Sound starts

theorem sound_divide {arguments : List (Tree ⊕ Keyword)}
    (h : ∀ a ∈ arguments, (argumentTree a).Sound starts) :
    SoundArguments starts (divide arguments) := by
  constructor
  · intro t ht
    obtain ⟨a, ha, hat⟩ := List.mem_filterMap.mp ht
    cases a with
    | inl s =>
      cases hat
      exact h _ ha
    | inr k => cases hat
  · intro k hk
    obtain ⟨a, ha, hak⟩ := List.mem_filterMap.mp hk
    cases a with
    | inl s => cases hak
    | inr k =>
      cases hak
      exact h _ ha

theorem arguments_spec (h : inner.Fit starts) (pos? : Option Position) (ts : List Token) :
    ⦃fun us => ⌜us = ts⌝⦄ inner.arguments pos?
    ⦃⇓? a us => ⌜Passes ts us [] ∧ SoundArguments starts a⌝⦄ := by
  have hargument := argument_spec h
  have hothers := items_spec (f := fun _ => []) startsArgument hargument
  have hclauses := clauses_spec h
  mvcgen [arguments, hargument, hothers, hclauses]
  all_goals grind [SoundArguments, sound_divide, Tree.params?, Tree.children]

theorem subscript_spec (h : inner.Fit starts) (ts : List Token) :
    ⦃fun us => ⌜us = ts⌝⦄ inner.subscript ⦃⇓? _ us => ⌜Passes ts us [] ∧ True⌝⦄ := by
  have hexpression := h.expression
  have hstarred := starred_spec h.expression (named_spec h)
  mvcgen [subscript, hexpression, hstarred]
  all_goals grind

theorem trailer_spec (h : inner.Fit starts) (pos : Position) {t : Tree} (ht : t.Sound starts)
    (ts : List Token) :
    ⦃fun us => ⌜us = ts⌝⦄ inner.trailer pos t
    ⦃⇓? t? us => ⌜Passes ts us [] ∧ ∀ t, t? = some t → t.pos = pos ∧ t.Sound starts⌝⦄ := by
  have harguments := arguments_spec h
  have hsubscripts := separated_spec (f := fun _ => []) startsSubscript (subscript_spec h)
  mvcgen [trailer, harguments, hsubscripts]
  all_goals grind [SoundArguments, Tree.pos, Tree.params?, Tree.children]

theorem primary_spec (h : inner.Fit starts) (ts : List Token) :
    ⦃fun us => ⌜us = ts⌝⦄ inner.primary ⦃⇓? t us => ⌜Fits starts ts t us⌝⦄ := by
  have hatom := atom_spec h
  have hfollow (pos : Position) (first : Tree) (hfirst : first.Sound starts) :=
    follow_spec (Q := fun t => t.Sound starts ∧ (t.pos = first.pos ∨ t.pos = pos))
      (p := inner.trailer pos) (a := first) (fun t ht ts => by
        have htrailer := trailer_spec h pos ht.1
        mvcgen [htrailer]
        grind) ⟨hfirst, .inl rfl⟩
  mvcgen [primary, hatom, hfollow]
  all_goals grind

theorem awaited_spec (h : inner.Fit starts) (ts : List Token) :
    ⦃fun us => ⌜us = ts⌝⦄ inner.awaited ⦃⇓? t us => ⌜Fits starts ts t us⌝⦄ := by
  have hprimary := primary_spec h
  refine triple_of fun Q hQ => ?_
  mvcgen [awaited, hprimary]
  all_goals grind [Tree.pos, Tree.params?, Tree.children]

/-! ## operators -/

theorem isLayout_of_isSign (l : Lexeme) (h : isSign l = true) : l.isLayout = false := by
  cases l with
  | mark m => rfl
  | _ => cases h

theorem isLayout_of_isArithmetic (l : Lexeme) (h : isArithmetic l = true) :
    l.isLayout = false := by
  cases l with
  | mark m => rfl
  | _ => cases h

/-- a token of one kind after another -/
theorem skips_spec {more : Lexeme → Bool} (hmore : ∀ l, more l = true → l.isLayout = false)
    (ts : List Token) :
    ⦃fun us => ⌜us = ts⌝⦄ allWhile more skip ⦃⇓? _ us => ⌜Passes ts us []⌝⦄ := by
  have hskip (ts : List Token) (hts : Starts ts) :
      ⦃fun us => ⌜us = ts⌝⦄ skip ⦃⇓? _ us => ⌜Takes ts us ∧ True⌝⦄ := by
    mvcgen
    grind
  have hall := allWhile_spec hmore hskip
  mvcgen [hall]
  grind

theorem factor_spec (h : inner.Fit starts) (ts : List Token) :
    ⦃fun us => ⌜us = ts⌝⦄ inner.factor ⦃⇓? t us => ⌜Fits starts ts t us⌝⦄ := by
  have hsigns := skips_spec isLayout_of_isSign
  have hawaited := awaited_spec h
  have hpower (ts : List Token) :
      ⦃fun us => ⌜us = ts⌝⦄
      (do
        let _ ← allWhile isSign skip
        inner.awaited : Reader Tree)
      ⦃⇓? t us => ⌜Passes ts us [] ∧ t.Sound starts⌝⦄ := by
    mvcgen [hsigns, hawaited]
    grind
  have hpowers := allWhile_spec (isLayout_of_beq (m := .mark (.operator .pow)) rfl)
    (skipping_spec hpower)
  mvcgen [factor, hsigns, hawaited, hpowers]
  all_goals grind [Tree.pos, Tree.params?, Tree.children]

theorem arithmeticRule_spec (h : inner.Fit starts) (ts : List Token) :
    ⦃fun us => ⌜us = ts⌝⦄ inner.arithmeticRule ⦃⇓? t us => ⌜Fits starts ts t us⌝⦄ := by
  have hfactor := factor_spec h
  have hothers := allWhile_spec isLayout_of_isArithmetic (skipping_spec (sound_spec hfactor))
  mvcgen [arithmeticRule, hfactor, hothers]
  all_goals grind [Tree.pos, Tree.params?, Tree.children]

theorem comparator_spec (ts : List Token) :
    ⦃fun us => ⌜us = ts⌝⦄ comparator? ⦃⇓? _ us => ⌜Passes ts us []⌝⦄ := by
  mvcgen [comparator?]
  all_goals grind [Lexeme.isLayout]

section
variable {arithmetic : Reader Tree}
  (harithmetic : ∀ ts, ⦃fun us => ⌜us = ts⌝⦄ arithmetic ⦃⇓? t us => ⌜Fits starts ts t us⌝⦄)
include harithmetic

theorem link_spec (ts : List Token) :
    ⦃fun us => ⌜us = ts⌝⦄ link arithmetic
    ⦃⇓? link? us => ⌜Passes ts us [] ∧ ∀ l, link? = some l → l.2.Sound starts⌝⦄ := by
  have hcomparator := comparator_spec
  mvcgen [link, hcomparator, harithmetic]
  all_goals grind

theorem comparison_spec (ts : List Token) :
    ⦃fun us => ⌜us = ts⌝⦄ comparison arithmetic ⦃⇓? t us => ⌜Fits starts ts t us⌝⦄ := by
  have hlinks := all_spec (link_spec harithmetic)
  mvcgen [comparison, harithmetic, hlinks]
  all_goals grind [Tree.pos, Tree.params?, Tree.children]

theorem inversion_spec (ts : List Token) :
    ⦃fun us => ⌜us = ts⌝⦄ inversion arithmetic ⦃⇓? t us => ⌜Fits starts ts t us⌝⦄ := by
  have hnegations := skips_spec (isLayout_of_beq (m := .reserved .not) rfl)
  have hcomparison := comparison_spec harithmetic
  mvcgen [inversion, hnegations, hcomparison]
  all_goals grind [Tree.pos, Tree.params?, Tree.children]

theorem disjunctionRule_spec (ts : List Token) :
    ⦃fun us => ⌜us = ts⌝⦄ disjunctionRule arithmetic ⦃⇓? t us => ⌜Fits starts ts t us⌝⦄ := by
  have hinversion := inversion_spec harithmetic
  have hmore (l : Lexeme) (h : (l == .reserved .and || l == .reserved .or) = true) :
      l.isLayout = false := by
    rcases Bool.or_eq_true_iff.mp h with h | h <;> rw [eq_of_beq h] <;> rfl
  have hothers := allWhile_spec hmore (skipping_spec (sound_spec hinversion))
  mvcgen [disjunctionRule, hinversion, hothers]
  all_goals grind [Tree.pos, Tree.params?, Tree.children]

end

/-! ## all levels -/

theorem lambda_spec (h : inner.Fit starts) (pos : Position) (ts : List Token) :
    ⦃fun us => ⌜us = ts⌝⦄ inner.lambda pos
    ⦃⇓? t us => ⌜Passes ts us [] ∧ t.pos = pos ∧ t.Sound starts⌝⦄ := by
  have hexpression := h.expression
  have hparameters := @parameters_spec _ _ none h.expression nofun
  mvcgen [lambda, hexpression, hparameters]
  all_goals grind [Tree.pos, Tree.params?, Tree.children, Parameters.Fits]

theorem expressionRule_spec (h : inner.Fit starts) {disjunction : Reader Tree}
    (hdisjunction : ∀ ts,
      ⦃fun us => ⌜us = ts⌝⦄ disjunction ⦃⇓? t us => ⌜Fits starts ts t us⌝⦄) (ts : List Token) :
    ⦃fun us => ⌜us = ts⌝⦄ inner.expressionRule disjunction
    ⦃⇓? t us => ⌜Fits starts ts t us⌝⦄ := by
  have hexpression := h.expression
  have hlambda := lambda_spec h
  refine triple_of fun Q hQ => ?_
  mvcgen [expressionRule, hexpression, hlambda, hdisjunction]
  all_goals grind [Tree.pos, Tree.params?, Tree.children]

theorem fit_outer (h : inner.Fit starts) : inner.outer.Fit starts :=
  have hdisjunction := disjunctionRule_spec (arithmeticRule_spec h)
  ⟨expressionRule_spec h hdisjunction, hdisjunction, arithmeticRule_spec h⟩

theorem fit_upTo (depth : Nat) : (upTo depth).Fit starts := by
  induction depth with
  | zero => exact ⟨fun _ => stuck_spec, fun _ => stuck_spec, fun _ => stuck_spec⟩
  | succ depth ih => exact fit_outer ih

theorem within_spec {α : Type} {p : Levels → Reader α} {P : List Token → α → List Token → Prop}
    (hp : ∀ l : Levels, l.Fit starts → ∀ ts,
      ⦃fun us => ⌜us = ts⌝⦄ p l ⦃⇓? a us => ⌜P ts a us⌝⦄) (ts : List Token) :
    ⦃fun us => ⌜us = ts⌝⦄ within p ⦃⇓? a us => ⌜P ts a us⌝⦄ :=
  triple_congr (hp (upTo (ts.length + 1)) (fit_upTo _) ts) rfl

end Levels

/-! ## the forms that statements use -/

section
variable {starts : List Int}

theorem expression_spec (ts : List Token) :
    ⦃fun us => ⌜us = ts⌝⦄ expression ⦃⇓? t us => ⌜Fits starts ts t us⌝⦄ :=
  Levels.within_spec (fun _ h => h.expression) ts

theorem namedExpression_spec (ts : List Token) :
    ⦃fun us => ⌜us = ts⌝⦄ namedExpression ⦃⇓? t us => ⌜Fits starts ts t us⌝⦄ :=
  Levels.within_spec (fun _ h => Levels.named_spec h) ts

theorem expressions_spec (ts : List Token) :
    ⦃fun us => ⌜us = ts⌝⦄ expressions ⦃⇓? t us => ⌜Fits starts ts t us⌝⦄ :=
  Levels.within_spec (fun _ h => Levels.expressions_spec h) ts

theorem targets_spec (ts : List Token) :
    ⦃fun us => ⌜us = ts⌝⦄ targets ⦃⇓? t us => ⌜Fits starts ts t us⌝⦄ :=
  Levels.within_spec (fun _ h => Levels.targets_spec h) ts

theorem target_spec (ts : List Token) :
    ⦃fun us => ⌜us = ts⌝⦄ target ⦃⇓? t us => ⌜Fits starts ts t us⌝⦄ := by
  have harithmetic := Levels.within_spec (p := (·.arithmetic)) fun l (h : l.Fit starts) =>
    h.arithmetic
  mvcgen [target, harithmetic]
  all_goals grind [Tree.pos_stored, Tree.sound_stored]

theorem displayed_spec (ts : List Token) :
    ⦃fun us => ⌜us = ts⌝⦄ displayed ⦃⇓? t us => ⌜Fits starts ts t us⌝⦄ :=
  Levels.within_spec (fun _ h => Levels.sequence_spec (Levels.item_spec h)) ts

theorem annotated_spec (ts : List Token) :
    ⦃fun us => ⌜us = ts⌝⦄ Levels.within (fun l => Levels.starred l.arithmetic l.expression)
    ⦃⇓? t us => ⌜Fits starts ts t us⌝⦄ :=
  Levels.within_spec (fun _ h => Levels.starred_spec h.arithmetic h.expression) ts

theorem arguments_spec (ts : List Token) :
    ⦃fun us => ⌜us = ts⌝⦄ arguments
    ⦃⇓? a us => ⌜Passes ts us [] ∧ Levels.SoundArguments starts a⌝⦄ :=
  Levels.within_spec (fun _ h => Levels.arguments_spec h none) ts

theorem value_spec (ts : List Token) :
    ⦃fun us => ⌜us = ts⌝⦄ value ⦃⇓? t us => ⌜Fits starts ts t us⌝⦄ := by
  have hyielded (pos : Position) :=
    Levels.within_spec (p := (Levels.yielded · pos)) fun l (h : l.Fit starts) =>
      Levels.yielded_spec h pos
  have hexpressions := @expressions_spec starts
  refine triple_of fun Q hQ => ?_
  mvcgen [value, hyielded, hexpressions]
  all_goals grind

end

end Reflow.Source
