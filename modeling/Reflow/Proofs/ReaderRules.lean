import Mathlib
import Reflow.Proofs.SourceOrder
import Reflow.Source.Reader

/-!
# Rules for readers

What a reader of expressions takes from the front of the tokens is a run of them, none of which is
one of layout.  The places of the nodes that it gives are places of these tokens.  There is one rule
for every way in which readers are put together.

* `Passes`              places that lie, in order, in the run between two lists of tokens;
* `Reader.triple_iff`   what a triple says of a reader;
* `Reader.next_spec` and so on   single tokens;
* `Reader.orElse_spec`  choice;
* `Reader.all_keeps`, `all_spec`, `items_spec`, `follow_spec`   repetition;
* `Tree.Sound`, `Fits`  what readers of expressions give.
-/

set_option mvcgen.warning false

open Std.Do

namespace Reflow.Source

/-- the place of a token -/
def Token.place (t : Token) : Position := ⟨some t.line, t.bytes⟩

/-- `rest` is left of `ts` after a run of tokens, none of them one of layout, and the given places
are places of tokens in this run, in the same order -/
def Passes (ts rest : List Token) (places : List Position) : Prop :=
  ∃ run, ts = run ++ rest ∧ (∀ t ∈ run, t.lexeme.isLayout = false) ∧
    places.Sublist (run.map Token.place)

/-- the first token is not one of layout -/
def Starts (ts : List Token) : Prop := ∃ t, ts.head? = some t ∧ t.lexeme.isLayout = false

/-- at least one token is taken -/
def Takes (ts rest : List Token) : Prop := ∃ p, Passes ts rest [p]

@[grind →]
theorem Starts.of_head {ts : List Token} {t : Token} (h : ts.head? = some t)
    (ht : t.lexeme.isLayout = false) : Starts ts := ⟨t, h, ht⟩

namespace Passes
variable {ts us rest : List Token} {ps qs : List Position}

@[grind .]
theorem refl (ts : List Token) : Passes ts ts [] := ⟨[], rfl, nofun, .slnil⟩

theorem token {t : Token} (h : t.lexeme.isLayout = false) : Passes (t :: ts) ts [t.place] :=
  ⟨[t], rfl, by simpa using h, .refl _⟩

theorem append (h : Passes ts us ps) (h' : Passes us rest qs) : Passes ts rest (ps ++ qs) := by
  obtain ⟨run, rfl, hrun, hps⟩ := h
  obtain ⟨run', rfl, hrun', hqs⟩ := h'
  refine ⟨run ++ run', (List.append_assoc ..).symm, ?_, ?_⟩
  · intro t ht
    rcases List.mem_append.mp ht with ht | ht
    · exact hrun t ht
    · exact hrun' t ht
  · rw [List.map_append]
    exact hps.append hqs

theorem cons {p : Position} (h : Passes ts us [p]) (h' : Passes us rest ps) :
    Passes ts rest (p :: ps) := h.append h'

theorem sublist (h : Passes ts rest ps) (hqs : qs.Sublist ps) : Passes ts rest qs := by
  obtain ⟨run, rfl, hrun, hps⟩ := h
  exact ⟨run, rfl, hrun, hqs.trans hps⟩

@[grind →]
theorem left (h : Passes ts us ps) (h' : Passes us rest qs) : Passes ts rest ps := by
  have hall := h.append h'
  exact hall.sublist (List.sublist_append_left ps qs)

@[grind →]
theorem right (h : Passes ts us ps) (h' : Passes us rest qs) : Passes ts rest qs := by
  have hall := h.append h'
  exact hall.sublist (List.sublist_append_right ps qs)

@[grind →]
theorem nil (h : Passes ts rest ps) : Passes ts rest [] := h.sublist (List.nil_sublist ps)

@[grind →]
theorem takes {p : Position} (h : Passes ts rest (p :: ps)) : Takes ts rest :=
  ⟨p, h.sublist (by simp)⟩

end Passes

namespace Takes
variable {ts us rest : List Token} {ps : List Position}

@[grind →]
theorem passes (h : Takes ts rest) : Passes ts rest [] := by
  obtain ⟨p, hp⟩ := h
  exact hp.nil

@[grind →]
theorem left (h : Takes ts us) (h' : Passes us rest ps) : Takes ts rest := by
  obtain ⟨p, hp⟩ := h
  exact ⟨p, hp.left h'⟩

@[grind →]
theorem right (h : Passes ts us ps) (h' : Takes us rest) : Takes ts rest := by
  obtain ⟨p, hp⟩ := h'
  exact ⟨p, h.right hp⟩

/-- the first token is among those that are taken -/
theorem head {t : Token} (h : Takes (t :: ts) rest) : Passes (t :: ts) rest [t.place] := by
  obtain ⟨p, run, hts, hrun, hp⟩ := h
  cases run with
  | nil => cases hp
  | cons u run =>
    obtain ⟨rfl, rfl⟩ := List.cons.inj hts
    exact ⟨t :: run, rfl, hrun, by simp⟩

end Takes

namespace Reader
variable {α : Type} {ts : List Token}

theorem triple_iff {p : Reader α} {I : List Token → Prop} {P : α → List Token → Prop} :
    (⦃fun us => ⌜I us⌝⦄ p ⦃⇓? a us => ⌜P a us⌝⦄) ↔
      ∀ ts, I ts → ∀ a rest, p ts = .ok (a, rest) → P a rest := by
  constructor
  · intro h ts hts a rest hp
    have hrun : StateT.run p ts = .ok (a, rest) := hp
    have hwp := h ts hts
    simp only [WP.wp, PredTrans.apply_pushArg, hrun] at hwp
    exact hwp
  · intro h ts hts
    simp only [WP.wp, PredTrans.apply_pushArg]
    cases hp : StateT.run p ts with
    | ok r => exact h ts hts r.1 r.2 hp
    | error e => exact trivial

theorem triple_congr {p q : Reader α} {P : α → List Token → Prop}
    (h : ⦃fun us => ⌜us = ts⌝⦄ q ⦃⇓? a us => ⌜P a us⌝⦄) (hpq : p ts = q ts) :
    ⦃fun us => ⌜us = ts⌝⦄ p ⦃⇓? a us => ⌜P a us⌝⦄ := by
  rw [triple_iff] at h ⊢
  rintro us rfl a rest hp
  rw [hpq] at hp
  exact h us rfl a rest hp

/-- It is enough to show whatever follows from `P`.  The rule of a last step is then not matched
with `P` itself, which would make that step start where the whole reader does. -/
theorem triple_of {p : Reader α} {P : α → List Token → Prop}
    (h : ∀ Q : α → List Token → Prop, (∀ a us, P a us → Q a us) →
      ⦃fun us => ⌜us = ts⌝⦄ p ⦃⇓? a us => ⌜Q a us⌝⦄) :
    ⦃fun us => ⌜us = ts⌝⦄ p ⦃⇓? a us => ⌜P a us⌝⦄ := h P fun _ _ hP => hP

/-! ## single tokens -/

@[spec]
theorem stuck_spec {block? : Option (String × Nat)} {I : List Token → Prop}
    {P : α → List Token → Prop} :
    ⦃fun us => ⌜I us⌝⦄ stuck (α := α) block? ⦃⇓? a us => ⌜P a us⌝⦄ := by
  rw [triple_iff]
  intro ts hts a rest h
  cases h

@[spec]
theorem next_spec :
    ⦃fun us => ⌜us = ts⌝⦄ next
    ⦃⇓? t us => ⌜us = ts ∧ ts.head? = some t⌝⦄ := by
  rw [triple_iff]
  rintro us rfl t rest h
  cases us with
  | nil => cases h
  | cons u us =>
    cases h
    exact ⟨rfl, rfl⟩

@[spec]
theorem skip_spec :
    ⦃fun us => ⌜us = ts⌝⦄ skip ⦃⇓? _ us => ⌜us <:+ ts ∧ (Starts ts → Takes ts us)⌝⦄ := by
  rw [triple_iff]
  rintro us rfl a rest h
  cases us with
  | nil => cases h
  | cons u us =>
    cases h
    refine ⟨List.suffix_cons u rest, ?_⟩
    rintro ⟨t, hts, ht⟩
    cases hts
    exact (Passes.token ht).takes

@[spec]
theorem place_spec :
    ⦃fun us => ⌜us = ts⌝⦄ place
    ⦃⇓? p us => ⌜us = ts ∧ ∀ rest, Takes ts rest → Passes ts rest [p]⌝⦄ := by
  rw [triple_iff]
  rintro us rfl p rest h
  cases us with
  | nil => cases h
  | cons t us =>
    cases h
    exact ⟨rfl, fun rest => Takes.head⟩

@[spec]
theorem sees_spec (l : Lexeme) :
    ⦃fun us => ⌜us = ts⌝⦄ sees l
    ⦃⇓? b us => ⌜us = ts ∧ (b = true → l.isLayout = false → Starts ts)⌝⦄ := by
  mvcgen [sees]
  grind

theorem accept_suffix (l : Lexeme) (ts : List Token) :
    ⦃fun us => ⌜us = ts⌝⦄ accept l ⦃⇓? _ us => ⌜us <:+ ts⌝⦄ := by
  mvcgen [accept]
  all_goals grind

theorem expect_suffix (l : Lexeme) (ts : List Token) :
    ⦃fun us => ⌜us = ts⌝⦄ expect l ⦃⇓? _ us => ⌜us <:+ ts⌝⦄ := by
  mvcgen [expect]
  all_goals grind

theorem accept_spec {l : Lexeme} (hl : l.isLayout = false) :
    ⦃fun us => ⌜us = ts⌝⦄ accept l
    ⦃⇓? b us => ⌜Passes ts us [] ∧ (b = true → Takes ts us)⌝⦄ := by
  mvcgen [accept]
  all_goals grind

theorem expect_spec {l : Lexeme} (hl : l.isLayout = false) :
    ⦃fun us => ⌜us = ts⌝⦄ expect l ⦃⇓? _ us => ⌜Takes ts us⌝⦄ := by
  mvcgen [expect]
  all_goals grind

@[spec]
theorem acceptMark_spec (m : Mark) :
    ⦃fun us => ⌜us = ts⌝⦄ acceptMark m
    ⦃⇓? b us => ⌜Passes ts us [] ∧ (b = true → Takes ts us)⌝⦄ :=
  accept_spec rfl

@[spec]
theorem acceptWord_spec (w : Reserved) :
    ⦃fun us => ⌜us = ts⌝⦄ acceptWord w
    ⦃⇓? b us => ⌜Passes ts us [] ∧ (b = true → Takes ts us)⌝⦄ :=
  accept_spec rfl

@[spec]
theorem expectMark_spec (m : Mark) :
    ⦃fun us => ⌜us = ts⌝⦄ expectMark m ⦃⇓? _ us => ⌜Takes ts us⌝⦄ := expect_spec rfl

@[spec]
theorem expectWord_spec (w : Reserved) :
    ⦃fun us => ⌜us = ts⌝⦄ expectWord w ⦃⇓? _ us => ⌜Takes ts us⌝⦄ := expect_spec rfl

@[spec]
theorem name_spec : ⦃fun us => ⌜us = ts⌝⦄ name ⦃⇓? _ us => ⌜Takes ts us⌝⦄ := by
  mvcgen [name]
  grind [Lexeme.isLayout]

/-- a name, as the rules for repetition have it -/
theorem name_passes (ts : List Token) :
    ⦃fun us => ⌜us = ts⌝⦄ name ⦃⇓? _ us => ⌜Passes ts us [] ∧ True⌝⦄ := by
  mvcgen
  grind

/-! ## choice and repetition -/

theorem orElse_spec {p q : Reader α} {I : List Token → Prop} {P : α → List Token → Prop}
    (hp : ⦃fun us => ⌜I us⌝⦄ p ⦃⇓? a us => ⌜P a us⌝⦄)
    (hq : ⦃fun us => ⌜I us⌝⦄ q ⦃⇓? a us => ⌜P a us⌝⦄) :
    ⦃fun us => ⌜I us⌝⦄ orElse p q ⦃⇓? a us => ⌜P a us⌝⦄ := by
  rw [triple_iff] at hp hq ⊢
  intro ts hts a us h
  rw [orElse] at h
  split at h
  · next hread =>
    cases h
    exact hp ts hts a us hread
  · split at h
    · next hread =>
      cases h
      exact hq ts hts a us hread
    · cases h

section
variable {Q : α → Prop}

theorem keeps_of_spec {p : Reader α} {I : List Token → Prop} {R : List Token → List Token → Prop}
    (hI : ∀ ts us, I ts → R ts us → I us)
    (hp : ∀ ts, ⦃fun us => ⌜us = ts⌝⦄ p ⦃⇓? a us => ⌜R ts us ∧ Q a⌝⦄) :
    ⦃fun us => ⌜I us⌝⦄ p ⦃⇓? a us => ⌜I us ∧ Q a⌝⦄ := by
  rw [triple_iff]
  intro ts hts a us hread
  obtain ⟨hus, ha⟩ := triple_iff.mp (hp ts) ts rfl a us hread
  exact ⟨hI ts us hts hus, ha⟩

/-- what every step keeps is kept -/
theorem allFor_keeps {p : Reader (Option α)} {I : List Token → Prop}
    (hp : ⦃fun us => ⌜I us⌝⦄ p ⦃⇓? a? us => ⌜I us ∧ ∀ a, a? = some a → Q a⌝⦄) (fuel : Nat) :
    ⦃fun us => ⌜I us⌝⦄ allFor p fuel ⦃⇓? as us => ⌜I us ∧ ∀ a ∈ as, Q a⌝⦄ := by
  induction fuel with
  | zero => exact stuck_spec
  | succ fuel ih =>
    mvcgen [allFor, hp, ih]
    all_goals grind

theorem all_keeps {p : Reader (Option α)} {I : List Token → Prop}
    (hp : ⦃fun us => ⌜I us⌝⦄ p ⦃⇓? a? us => ⌜I us ∧ ∀ a, a? = some a → Q a⌝⦄) :
    ⦃fun us => ⌜I us⌝⦄ all p ⦃⇓? as us => ⌜I us ∧ ∀ a ∈ as, Q a⌝⦄ := by
  rw [triple_iff]
  intro ts
  exact triple_iff.mp (allFor_keeps hp (ts.length + 1)) ts

theorem allWhile_keeps (more : Lexeme → Bool) {p : Reader α} {I : List Token → Prop}
    (hp : ⦃fun us => ⌜I us⌝⦄ p ⦃⇓? a us => ⌜I us ∧ Q a⌝⦄) :
    ⦃fun us => ⌜I us⌝⦄ allWhile more p ⦃⇓? as us => ⌜I us ∧ ∀ a ∈ as, Q a⌝⦄ := by
  unfold allWhile
  refine all_keeps ?_
  mvcgen [hp]
  all_goals grind

theorem allFor_spec {p : Reader (Option α)}
    (hp : ∀ ts, ⦃fun us => ⌜us = ts⌝⦄ p ⦃⇓? a? us => ⌜Passes ts us [] ∧ ∀ a, a? = some a → Q a⌝⦄)
    (fuel : Nat) (ts : List Token) :
    ⦃fun us => ⌜us = ts⌝⦄ allFor p fuel ⦃⇓? as us => ⌜Passes ts us [] ∧ ∀ a ∈ as, Q a⌝⦄ := by
  have hkept := allFor_keeps (keeps_of_spec (fun us rest => @Passes.right ts us rest [] []) hp) fuel
  mvcgen [hkept]
  grind

theorem all_spec {p : Reader (Option α)}
    (hp : ∀ ts, ⦃fun us => ⌜us = ts⌝⦄ p ⦃⇓? a? us => ⌜Passes ts us [] ∧ ∀ a, a? = some a → Q a⌝⦄)
    (ts : List Token) :
    ⦃fun us => ⌜us = ts⌝⦄ all p ⦃⇓? as us => ⌜Passes ts us [] ∧ ∀ a ∈ as, Q a⌝⦄ :=
  triple_congr (allFor_spec hp (ts.length + 1) ts) rfl

/-- what the first step takes is taken in all -/
theorem all_takes_spec {p : Reader (Option α)} {F : List Token → Prop}
    (hp : ∀ ts, ⦃fun us => ⌜us = ts⌝⦄ p
      ⦃⇓? a? us => ⌜Passes ts us [] ∧ (∀ a, a? = some a → Q a) ∧ (F ts → Takes ts us)⌝⦄)
    (ts : List Token) :
    ⦃fun us => ⌜us = ts⌝⦄ all p
    ⦃⇓? as us => ⌜Passes ts us [] ∧ (∀ a ∈ as, Q a) ∧ (F ts → Takes ts us)⌝⦄ := by
  have hrest (fuel : Nat) (ts : List Token) :
      ⦃fun us => ⌜us = ts⌝⦄ allFor p fuel ⦃⇓? as us => ⌜Passes ts us [] ∧ ∀ a ∈ as, Q a⌝⦄ := by
    refine allFor_spec (fun ts => ?_) fuel ts
    mvcgen [hp]
    grind
  have hall :
      ⦃fun us => ⌜us = ts⌝⦄ allFor p (ts.length + 1)
      ⦃⇓? as us => ⌜Passes ts us [] ∧ (∀ a ∈ as, Q a) ∧ (F ts → Takes ts us)⌝⦄ := by
    rw [allFor]
    mvcgen [hp, hrest]
    all_goals grind
  exact triple_congr hall rfl

theorem allWhile_spec {more : Lexeme → Bool} {p : Reader α}
    (hmore : ∀ l, more l = true → l.isLayout = false)
    (hp : ∀ ts, Starts ts → ⦃fun us => ⌜us = ts⌝⦄ p ⦃⇓? a us => ⌜Takes ts us ∧ Q a⌝⦄)
    (ts : List Token) :
    ⦃fun us => ⌜us = ts⌝⦄ allWhile more p
    ⦃⇓? as us => ⌜Passes ts us [] ∧ (∀ a ∈ as, Q a) ∧
      ((∃ t, ts.head? = some t ∧ more t.lexeme = true) → Takes ts us)⌝⦄ := by
  unfold allWhile
  refine all_takes_spec (F := fun ts => ∃ t, ts.head? = some t ∧ more t.lexeme = true) ?_ ts
  intro ts
  mvcgen [hp]
  all_goals grind

theorem isLayout_of_beq {m : Lexeme} (hm : m.isLayout = false) (l : Lexeme)
    (h : (l == m) = true) : l.isLayout = false := by
  rw [eq_of_beq h]
  exact hm

/-- the first token is passed over -/
theorem skipping_spec {p : Reader α}
    (hp : ∀ ts, ⦃fun us => ⌜us = ts⌝⦄ p ⦃⇓? a us => ⌜Passes ts us [] ∧ Q a⌝⦄) (ts : List Token)
    (hts : Starts ts) :
    ⦃fun us => ⌜us = ts⌝⦄ (do skip; p : Reader α) ⦃⇓? a us => ⌜Takes ts us ∧ Q a⌝⦄ := by
  mvcgen [hp]
  grind

theorem itemsFor_spec {starts : Lexeme → Bool} {p : Reader α} {f : α → List Position}
    (hp : ∀ ts, ⦃fun us => ⌜us = ts⌝⦄ p ⦃⇓? a us => ⌜Passes ts us (f a) ∧ Q a⌝⦄) (fuel : Nat)
    (ts : List Token) :
    ⦃fun us => ⌜us = ts⌝⦄ itemsFor starts p fuel
    ⦃⇓? as us => ⌜Passes ts us (as.flatMap f) ∧ ∀ a ∈ as, Q a⌝⦄ := by
  induction fuel generalizing ts with
  | zero => exact stuck_spec
  | succ fuel ih =>
    mvcgen [itemsFor, hp, ih]
    all_goals grind [Passes.append]

theorem items_spec {p : Reader α} {f : α → List Position} (starts : Lexeme → Bool)
    (hp : ∀ ts, ⦃fun us => ⌜us = ts⌝⦄ p ⦃⇓? a us => ⌜Passes ts us (f a) ∧ Q a⌝⦄)
    (ts : List Token) :
    ⦃fun us => ⌜us = ts⌝⦄ items starts p
    ⦃⇓? as us => ⌜Passes ts us (as.flatMap f) ∧ ∀ a ∈ as, Q a⌝⦄ :=
  triple_congr (itemsFor_spec hp (ts.length + 1) ts) rfl

theorem separated_spec {p : Reader α} {f : α → List Position} (starts : Lexeme → Bool)
    (hp : ∀ ts, ⦃fun us => ⌜us = ts⌝⦄ p ⦃⇓? a us => ⌜Passes ts us (f a) ∧ Q a⌝⦄)
    (ts : List Token) :
    ⦃fun us => ⌜us = ts⌝⦄ separated starts p
    ⦃⇓? r us => ⌜(∃ a as, r.1 = a :: as) ∧ Passes ts us (r.1.flatMap f) ∧ ∀ a ∈ r.1, Q a⌝⦄ := by
  have hitems := items_spec starts hp
  mvcgen [separated, hp, hitems]
  all_goals grind [Passes.append]

theorem followFor_spec {p : α → Reader (Option α)}
    (hp : ∀ a, Q a → ∀ ts, ⦃fun us => ⌜us = ts⌝⦄ p a
      ⦃⇓? b? us => ⌜Passes ts us [] ∧ ∀ b, b? = some b → Q b⌝⦄) (fuel : Nat) {a : α} (ha : Q a)
    (ts : List Token) :
    ⦃fun us => ⌜us = ts⌝⦄ followFor p fuel a ⦃⇓? b us => ⌜Passes ts us [] ∧ Q b⌝⦄ := by
  induction fuel generalizing ts a with
  | zero => exact stuck_spec
  | succ fuel ih =>
    refine triple_of fun R hR => ?_
    mvcgen [followFor, hp, ih]
    all_goals grind

theorem follow_spec {p : α → Reader (Option α)}
    (hp : ∀ a, Q a → ∀ ts, ⦃fun us => ⌜us = ts⌝⦄ p a
      ⦃⇓? b? us => ⌜Passes ts us [] ∧ ∀ b, b? = some b → Q b⌝⦄) {a : α} (ha : Q a)
    (ts : List Token) :
    ⦃fun us => ⌜us = ts⌝⦄ follow p a ⦃⇓? b us => ⌜Passes ts us [] ∧ Q b⌝⦄ :=
  triple_congr (followFor_spec hp (ts.length + 1) ha ts) rfl

end

end Reader

/-! ## what readers of expressions give -/

/-- every function in a tree, at any depth, is regular -/
def Tree.Sound (starts : List Int) (t : Tree) : Prop := ∀ s ∈ t.subtrees, s.Regular starts

theorem Tree.sound_iff {starts : List Int} {t : Tree} :
    t.Sound starts ↔ t.Regular starts ∧ ∀ s ∈ t.children, s.Sound starts := forall_subtrees

@[grind =]
theorem Tree.sound_of_not_function {starts : List Int} {t : Tree} (h : t.params? = none) :
    t.Sound starts ↔ ∀ s ∈ t.children, s.Sound starts := by
  rw [sound_iff, Tree.Regular, h]
  simp

/-- what a reader of expressions gives -/
@[grind]
structure Fits (starts : List Int) (ts : List Token) (t : Tree) (rest : List Token) : Prop where
  passes : Passes ts rest [t.pos]
  sound : t.Sound starts

section
variable {starts : List Int} {p : Reader Tree}

/-- trees that fit, as the rules for repetition have them -/
theorem placed_spec
    (hp : ∀ ts, ⦃fun us => ⌜us = ts⌝⦄ p ⦃⇓? t us => ⌜Fits starts ts t us⌝⦄) (ts : List Token) :
    ⦃fun us => ⌜us = ts⌝⦄ p ⦃⇓? t us => ⌜Passes ts us [t.pos] ∧ t.Sound starts⌝⦄ := by
  mvcgen [hp]
  grind

/-- the same where the places of the trees do not matter -/
theorem sound_spec
    (hp : ∀ ts, ⦃fun us => ⌜us = ts⌝⦄ p ⦃⇓? t us => ⌜Fits starts ts t us⌝⦄) (ts : List Token) :
    ⦃fun us => ⌜us = ts⌝⦄ p ⦃⇓? t us => ⌜Passes ts us [] ∧ t.Sound starts⌝⦄ := by
  mvcgen [hp]
  grind

end

end Reflow.Source
