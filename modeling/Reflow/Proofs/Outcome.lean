import Mathlib.Data.List.Basic
import Mathlib.Tactic.ByContra
import Reflow.Proofs.Pairing

/-!
# When printing has an outcome

`Settles P r` says when a result `r` is there: if and only if `P` holds, and otherwise some
construct cannot be printed.  Nothing else goes wrong then, such as an empty field or an integer
that is too long.  Each rule settles what its parts settle together, so a part that a rule would
drop without looking at it shows as a condition that is missing.

* `Settles.bind`, `Settles.all`   one part after the other, and a list of parts;
* `Rule.settles_module` and so on   the rules, one by one.
-/

namespace Reflow

/-- there is a result just if `P` holds; otherwise some construct cannot be printed -/
structure Settles {α : Type} (P : Prop) (r : Except PrintError α) : Prop where
  result : P → ∃ a, r = .ok a
  unsupported : ¬ P → ∃ kind detail, r = .error (.unsupported kind detail)

namespace Settles
variable {α β : Type} {P Q : Prop} {r : Except PrintError α} {f : α → Except PrintError β}

theorem iff (h : Settles P r) : (∃ a, r = .ok a) ↔ P := by
  refine ⟨fun ⟨a, ha⟩ => ?_, h.result⟩
  by_contra hP
  obtain ⟨kind, detail, he⟩ := h.unsupported hP
  rw [ha] at he
  cases he

theorem congr (h : Settles P r) (hPQ : P ↔ Q) : Settles Q r := by
  rw [← hPQ]
  exact h

theorem ok (h : P) (a : α) : Settles P (.ok a : Except PrintError α) :=
  ⟨fun _ => ⟨a, rfl⟩, fun hP => absurd h hP⟩

theorem refuses (h : ¬ P) (kind : String) (detail : Option String) :
    Settles P (.error (.unsupported kind detail) : Except PrintError α) :=
  ⟨fun hP => absurd hP h, fun _ => ⟨kind, detail, rfl⟩⟩

/-- one part after the other: of two that are at fault the first one gives the reason -/
theorem bind (hr : Settles P r) (hf : ∀ a, Settles Q (f a)) : Settles (P ∧ Q) (r >>= f) := by
  constructor
  · intro h
    obtain ⟨a, rfl⟩ := hr.result h.1
    exact (hf a).result h.2
  · intro h
    by_cases hP : P
    · obtain ⟨a, rfl⟩ := hr.result hP
      exact (hf a).unsupported fun hQ => h ⟨hP, hQ⟩
    · obtain ⟨kind, detail, rfl⟩ := hr.unsupported hP
      exact ⟨kind, detail, rfl⟩

theorem map (h : Settles P r) (g : α → β) :
    Settles P (do let a ← r; return g a : Except PrintError β) :=
  (h.bind fun a => ok trivial (g a)).congr (iff_of_eq (and_true P))

theorem all {as : List α} {C : α → Prop} {f : α → Printed} (h : ∀ a ∈ as, Settles (C a) (f a)) :
    Settles (∀ a ∈ as, C a) (Printed.all (as.map f)) := by
  induction as with
  | nil => exact ok (List.forall_mem_nil C) []
  | cons a as ih =>
    have hrest := ih fun b hb => h b (List.mem_cons_of_mem a hb)
    rw [List.map_cons, Printed.all_cons, List.forall_mem_cons]
    exact (h a List.mem_cons_self).bind fun d => hrest.map (d :: ·)

theorem of_nil (h : Settles P (Printed.all [])) : P := h.iff.mp ⟨[], rfl⟩

end Settles

/-! ## rules -/

namespace Rule
variable {P Q R S : Prop}

theorem settles_module {body : List Printed} (h : Settles P (Printed.all body)) :
    Settles P (module body) := by
  unfold module
  cases body with
  | nil => exact Settles.ok h.of_nil _
  | cons d ds => exact h.map _

theorem settles_block {body : List Printed} (h : Settles P (Printed.all body)) :
    Settles P (block body) := h.map _

theorem settles_function {name : String} {params : Printed} {body : List Printed}
    (hp : Settles P params) (hb : Settles Q (Printed.all body)) :
    Settles (P ∧ Q) (function name params body) :=
  hp.bind fun _ => (settles_block hb).map _

theorem settles_keyword {name : Option String} {value : Printed} (h : Settles P value) :
    Settles P (keyword name value) := h.map _

theorem settles_call {offset : Int} {id : String} {args keywords : List Printed}
    (ha : Settles P (Printed.all args)) (hk : Settles Q (Printed.all keywords)) :
    Settles (P ∧ Q) (call (.ident offset id) args keywords) :=
  ha.bind fun _ => hk.map _

theorem settles_forLoop {target iter : Printed} {body orElse : List Printed}
    (ht : Settles P target) (hi : Settles Q iter) (hb : Settles R (Printed.all body))
    (ho : Settles S (Printed.all orElse)) :
    Settles (P ∧ Q ∧ R ∧ S) (forLoop target iter body orElse) := by
  refine ht.bind fun _ => hi.bind fun _ => (settles_block hb).bind fun _ => ?_
  cases orElse with
  | nil => exact Settles.ok ho.of_nil _
  | cons d ds => exact (settles_block ho).map _

theorem settles_tuple {inSequence : Bool} {elts : List Printed}
    (h : Settles P (Printed.all elts)) : Settles P (tuple inSequence elts) := by
  unfold tuple
  cases elts with
  | nil => exact Settles.ok h.of_nil _
  | cons d ds => exact h.map _

theorem settles_list {elts : List Printed} (h : Settles P (Printed.all elts)) :
    Settles P (list elts) := h.map _

theorem settles_assign {targets : List Printed} {value : Printed}
    (ht : Settles P (Printed.all targets)) (hv : Settles Q value) :
    Settles (P ∧ Q) (assign targets value) :=
  ht.bind fun _ => hv.map _

theorem settles_augAssign {target op value : Printed} (ht : Settles P target) (ho : Settles Q op)
    (hv : Settles R value) : Settles (P ∧ Q ∧ R) (augAssign target op value) :=
  ht.bind fun _ => ho.bind fun _ => hv.map _

theorem settles_dict {keys values : List Printed} (hk : Settles P (Printed.all keys))
    (hv : Settles Q (Printed.all values)) : Settles (P ∧ Q) (dict keys values) :=
  hk.bind fun _ => hv.map _

theorem settles_classDef {name : String} {bases body : List Printed}
    (hbases : Settles P (Printed.all bases)) (hbody : Settles Q (Printed.all body)) :
    Settles (P ∧ Q) (classDef name bases body) := by
  cases bases with
  | nil => exact ((settles_block hbody).map _).congr (and_iff_right hbases.of_nil).symm
  | cons d ds => exact hbases.bind fun _ => (settles_block hbody).map _

theorem settles_access {value : Printed} {attr : String} (h : Settles P value) :
    Settles P (access value attr) := h.map _

/-- operators and what is compared with come before the left side -/
theorem settles_compare {left : Printed} {ops comparators : List Printed}
    (ho : Settles P (Printed.all ops)) (hc : Settles Q (Printed.all comparators))
    (hl : Settles R left) : Settles (P ∧ Q ∧ R) (compare left ops comparators) :=
  ho.bind fun _ => hc.bind fun _ => hl.map _

/-- `*name` and `**name` are always printed -/
theorem settles_parameters {count : Nat} {positional : Except PrintError (List Doc)}
    {vararg kwarg : Option Doc} {byName : Option (Except PrintError (List Doc))}
    (hp : Settles P positional) (hb : ∀ ds ∈ byName, Settles Q ds) (hnone : byName = none → Q) :
    Settles (P ∧ Q) (parameters count positional (vararg.map .ok) byName (kwarg.map .ok)) := by
  refine hp.bind fun _ => ?_
  cases byName with
  | none =>
    have hQ : Q := hnone rfl
    cases vararg <;> cases kwarg <;> exact Settles.ok hQ _
  | some ds => cases vararg <;> cases kwarg <;> exact (hb ds rfl).map _

end Rule

end Reflow
