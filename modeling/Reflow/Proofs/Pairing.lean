import Mathlib.Data.List.Pairwise
import Mathlib.Data.List.Sort
import Reflow.Print.Rules

/-!
# Parameters paired by their place in the source

An ENTRY is a parameter with its default, if it has one.  Printing sees entries as two lists, the
parameters and the defaults, and finds out from the offsets alone which default belongs where.

* `mergedByOffset_eq`        merging is a stable sort by offset;
* `mergedByOffset_written`   entries in the order of the source are merged as they are written;
* `pairParameters_written`   and then every parameter is paired with its own default;
* `Rule.merged_entries`      so the printed parameters are the printed entries.
-/

namespace Reflow

/-! ## merging is a sort -/

namespace Node

/-- a node that does not start after another one -/
def Before (m n : Node) : Prop := m.offset ≤ n.offset

instance : DecidableRel Before := fun m n => inferInstanceAs (Decidable (m.offset ≤ n.offset))

instance : Std.Total Before := ⟨fun m n => Int.le_total m.offset n.offset⟩

instance : IsTrans Node Before := ⟨fun _ _ _ h₁ h₂ => Int.le_trans h₁ h₂⟩

end Node

theorem insertByOffset_eq (n : Node) (ms : List Node) :
    insertByOffset n ms = ms.orderedInsert Node.Before n := by
  induction ms with
  | nil => rfl
  | cons m ms ih =>
    rw [insertByOffset, List.orderedInsert_cons, ih]
    rfl

theorem mergedByOffset_eq (params defaults : List Node) :
    mergedByOffset params defaults = (params ++ defaults).insertionSort Node.Before := by
  have h : insertByOffset = List.orderedInsert Node.Before := by
    funext n ms
    exact insertByOffset_eq n ms
  rw [mergedByOffset, h]
  rfl

/-- two orders of the same nodes agree if offsets never fall in one and rise in the other -/
theorem eq_of_offsets_rise {ms ns : List Node} (hms : ms.Pairwise Node.Before)
    (hns : ns.Pairwise fun m n => m.offset < n.offset) (hperm : ms.Perm ns) : ms = ns := by
  have hdistinct : ∀ m ∈ ns, ∀ n ∈ ns, m.offset = n.offset → m = n := by
    intro m hm n hn h
    by_contra hne
    have hsymm : Std.Symm fun m n : Node => m.offset ≠ n.offset := ⟨fun _ _ h => h.symm⟩
    have hapart : ns.Pairwise fun m n => m.offset ≠ n.offset := hns.imp fun h => Int.ne_of_lt h
    exact hapart.forall hm hn hne h
  refine hperm.eq_of_pairwise (fun m n hm hn h₁ h₂ => ?_) hms (hns.imp fun h => Int.le_of_lt h)
  exact hdistinct m (hperm.subset hm) n hn (Int.le_antisymm h₁ h₂)

/-! ## entries -/

section
variable {α β : Type} (p : α → Node) (d : β → Node)

/-- the nodes of entries as they are written: every parameter, and after it its default -/
def written (es : List (α × Option β)) : List Node :=
  es.flatMap fun e => p e.1 :: (e.2.map d).toList

/-- the numbers of entries: those of the parameters, and those of the defaults that there are -/
def numbered (param dflt : Nat) : List (α × Option β) → List (Nat × Option Nat)
  | [] => []
  | (_, none) :: es => (param, none) :: numbered (param + 1) dflt es
  | (_, some _) :: es => (param, some dflt) :: numbered (param + 1) (dflt + 1) es

theorem written_cons (e : α × Option β) (es : List (α × Option β)) :
    written p d (e :: es) = p e.1 :: ((e.2.map d).toList ++ written p d es) := rfl

theorem written_perm (es : List (α × Option β)) :
    (es.map (fun e => p e.1) ++ (es.filterMap (·.2)).map d).Perm (written p d es) := by
  induction es with
  | nil => exact List.Perm.nil
  | cons e es ih =>
    obtain ⟨a, b?⟩ := e
    rw [written_cons]
    refine List.Perm.cons _ ?_
    cases b? with
    | none => exact ih
    | some b => exact List.perm_middle.trans (List.Perm.cons _ ih)

theorem mergedByOffset_written {es : List (α × Option β)}
    (h : (written p d es).Pairwise fun m n => m.offset < n.offset) :
    mergedByOffset (es.map fun e => p e.1) ((es.filterMap (·.2)).map d) = written p d es := by
  rw [mergedByOffset_eq]
  refine eq_of_offsets_rise (List.pairwise_insertionSort _ _) h ?_
  exact (List.perm_insertionSort _ _).trans (written_perm p d es)

variable (hp : ∀ a, (p a).isParameter = true) (hd : ∀ b, (d b).isParameter = false)
include hp hd

/-- the walk along entries as they are written gives each parameter its own default -/
theorem pairUp_written (es : List (α × Option β)) (param dflt : Nat) :
    pairUp es.length param dflt ((written p d es).map Node.isParameter) =
      numbered param dflt es := by
  induction es generalizing param dflt with
  | nil => rfl
  | cons e es ih =>
    obtain ⟨a, b?⟩ := e
    cases b? with
    | some b =>
      have hflags : (written p d ((a, some b) :: es)).map Node.isParameter =
          true :: false :: (written p d es).map Node.isParameter := by
        simp [written_cons, hp, hd]
      rw [hflags, List.length_cons, pairUp, ih]
      rfl
    | none =>
      have hflags : (written p d ((a, none) :: es)).map Node.isParameter =
          true :: (written p d es).map Node.isParameter := by
        simp [written_cons, hp]
      rw [hflags, List.length_cons, numbered]
      -- what follows is the next parameter, if anything
      cases es with
      | nil => rfl
      | cons e' es =>
        have hnext : (written p d (e' :: es)).map Node.isParameter =
            true :: (((e'.2.map d).toList ++ written p d es).map Node.isParameter) := by
          simp [written_cons, hp]
        rw [hnext] at ih ⊢
        rw [pairUp, ih]
        intro rest h
        injection h with h
        exact absurd h (by decide)

theorem pairParameters_written {es : List (α × Option β)}
    (h : (written p d es).Pairwise fun m n => m.offset < n.offset) :
    pairParameters (es.map fun e => p e.1) ((es.filterMap (·.2)).map d) = numbered 0 0 es := by
  rw [pairParameters, mergedByOffset_written p d h, List.length_map]
  exact pairUp_written p d hp hd es 0 0

end

/-! ## printed entries -/

theorem Printed.all_cons (x : Printed) (ps : List Printed) :
    Printed.all (x :: ps) = (do
      let d ← x
      let ds ← Printed.all ps
      return d :: ds) := rfl

namespace Rule

open Doc in
/-- a parameter with its default, if it has one -/
def entry (param : Printed) (dflt? : Option Printed) : Printed := do
  let param ← param
  match dflt? with
  | none => return concat [param]
  | some dflt => do
    let dflt ← dflt
    return concat [param, text "=", dflt]

theorem withDefaults_cons_none {i : Nat} {pairs : List (Nat × Option Nat)}
    {params defaults : List Printed} {x : Printed} (hx : params[i]? = some x) :
    withDefaults ((i, none) :: pairs) params defaults = (do
      let d ← entry x none
      let ds ← withDefaults pairs params defaults
      return d :: ds) := by
  simp only [withDefaults, List.map_cons, Printed.all, hx, Option.getD_some]
  rfl

theorem withDefaults_cons_some {i j : Nat} {pairs : List (Nat × Option Nat)}
    {params defaults : List Printed} {x y : Printed} (hx : params[i]? = some x)
    (hy : defaults[j]? = some y) :
    withDefaults ((i, some j) :: pairs) params defaults = (do
      let d ← entry x (some y)
      let ds ← withDefaults pairs params defaults
      return d :: ds) := by
  simp only [withDefaults, List.map_cons, Printed.all, hx, hy, Option.getD_some]
  rfl

section
variable {α β : Type} (f : α → Printed) (g : β → Printed)

/-- looked up by their numbers, parameters and defaults are the entries again; `before` and
`defaultsBefore` stand for the entries that have been passed -/
theorem withDefaults_numbered (es : List (α × Option β)) (before defaultsBefore : List Printed) :
    withDefaults (numbered before.length defaultsBefore.length es)
        (before ++ es.map fun e => f e.1) (defaultsBefore ++ (es.filterMap (·.2)).map g) =
      Printed.all (es.map fun e => entry (f e.1) (e.2.map g)) := by
  induction es generalizing before defaultsBefore with
  | nil => rfl
  | cons e es ih =>
    obtain ⟨a, b?⟩ := e
    have hparam : (before ++ f a :: es.map fun e => f e.1)[before.length]? = some (f a) := by simp
    cases b? with
    | none =>
      have hrest := ih (before ++ [f a]) defaultsBefore
      rw [List.length_append, List.length_singleton, List.append_assoc] at hrest
      refine Eq.trans ?_ (Printed.all_cons (entry (f a) none) _).symm
      rw [← hrest]
      exact withDefaults_cons_none hparam
    | some b =>
      have hdflt : (defaultsBefore ++ g b :: (es.filterMap (·.2)).map g)[defaultsBefore.length]? =
          some (g b) := by simp
      have hrest := ih (before ++ [f a]) (defaultsBefore ++ [g b])
      rw [List.length_append, List.length_append, List.length_singleton, List.length_singleton,
        List.append_assoc, List.append_assoc] at hrest
      refine Eq.trans ?_ (Printed.all_cons (entry (f a) (some (g b))) _).symm
      rw [← hrest]
      exact withDefaults_cons_some hparam hdflt

variable (p : α → Node) (d : β → Node)

/-- entries in the order of the source are printed one by one, each parameter with its own default
-/
theorem merged_entries (hp : ∀ a, (p a).isParameter = true) (hd : ∀ b, (d b).isParameter = false)
    (hplain : ∀ b, (d b).offset?.isSome = true) {es : List (α × Option β)}
    (h : (written p d es).Pairwise fun m n => m.offset < n.offset) :
    merged (es.map fun e => p e.1) ((es.filterMap (·.2)).map d) (es.map fun e => f e.1)
        ((es.filterMap (·.2)).map g) =
      Printed.all (es.map fun e => entry (f e.1) (e.2.map g)) := by
  have hoffsets : ((es.map fun e => p e.1) ++ (es.filterMap (·.2)).map d).find?
      (·.offset?.isNone) = none := by
    rw [List.find?_eq_none]
    intro n hn
    rcases List.mem_append.mp hn with hn | hn
    · obtain ⟨e, _, rfl⟩ := List.mem_map.mp hn
      have he := hp e.1
      cases hpe : p e.1 <;> simp [hpe, Node.isParameter, Node.offset?] at he ⊢
    · obtain ⟨b, _, rfl⟩ := List.mem_map.mp hn
      have hb := hplain b
      simp [Option.isNone_iff_eq_none, Option.isSome_iff_ne_none] at hb ⊢
      exact hb
  rw [merged, hoffsets, pairParameters_written p d hp hd h]
  exact withDefaults_numbered f g es [] []

end

end Rule

end Reflow
