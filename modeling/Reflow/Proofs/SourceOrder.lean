import Mathlib.Data.List.Basic
import Mathlib.Order.Defs.LinearOrder
import Reflow.Proofs.Pairing
import Reflow.Proofs.Subtrees
import Reflow.Source.Grammar

/-!
# Parameters and defaults in the order of the source

In a syntax tree the defaults belong to the last positional parameters, and a parameter by name has
its own default or none.  That is known from the two lists alone; offsets only have to agree with
it.

* `Parameters.Shaped`     there are not more defaults than parameters that can have one;
* `Parameters.InOrder`    offsets rise from a parameter to its own default, and from there to the
                          next parameter;
* `Tree.Regular`, `Module.Regular`   both hold of every function;
* `Grammar.Regular`       so it is in every module that a grammar gives;
* `Parameters.merged_lower`   the lists that lowering makes are printed entry by entry, every
                          parameter with its own default.
-/

namespace Reflow.Source

/-- `n` places of which the last ones are taken by the given things -/
def alignRight {α : Type} (n : Nat) (as : List α) : List (Option α) :=
  List.replicate (n - as.length) none ++ as.map some

namespace Parameters

def posOnly : Parameters → List Parameter
  | .mk posOnly .. => posOnly

def vararg : Parameters → Option Parameter
  | .mk _ _ vararg .. => vararg

def kwOnly : Parameters → List Parameter
  | .mk _ _ _ kwOnly .. => kwOnly

def kwDefaults : Parameters → List (Option Tree)
  | .mk _ _ _ _ kwDefaults .. => kwDefaults

def kwarg : Parameters → Option Parameter
  | .mk _ _ _ _ _ kwarg _ => kwarg

def defaults : Parameters → List Tree
  | .mk _ _ _ _ _ _ defaults => defaults

/-! ## entries -/

/-- the positional parameters with their defaults, which belong to the last of them -/
def positionalEntries (ps : Parameters) : List (Parameter × Option Tree) :=
  ps.positional.zip (alignRight ps.positional.length ps.defaults)

def byNameEntries (ps : Parameters) : List (Parameter × Option Tree) :=
  ps.kwOnly.zip ps.kwDefaults

def entryOffsets (starts : List Int) (es : List (Parameter × Option Tree)) : List Int :=
  es.flatMap fun e => e.1.pos.offset starts :: (e.2.map (·.pos.offset starts)).toList

/-- what the grammar promises of parameters and defaults -/
structure Shaped (ps : Parameters) : Prop where
  defaults_le : ps.defaults.length ≤ ps.positional.length
  kwDefaults_eq : ps.kwDefaults.length = ps.kwOnly.length

/-- every parameter lies strictly before its own default, and that strictly before the next
parameter of the same list -/
structure InOrder (starts : List Int) (ps : Parameters) : Prop where
  positional : (entryOffsets starts ps.positionalEntries).IsChain (· < ·)
  byName : (entryOffsets starts ps.byNameEntries).IsChain (· < ·)

instance (ps : Parameters) : Decidable ps.Shaped :=
  decidable_of_iff (ps.defaults.length ≤ ps.positional.length ∧
      ps.kwDefaults.length = ps.kwOnly.length)
    ⟨fun h => ⟨h.1, h.2⟩, fun h => ⟨h.1, h.2⟩⟩

instance (starts : List Int) (ps : Parameters) : Decidable (ps.InOrder starts) :=
  decidable_of_iff ((entryOffsets starts ps.positionalEntries).IsChain (· < ·) ∧
      (entryOffsets starts ps.byNameEntries).IsChain (· < ·))
    ⟨fun h => ⟨h.1, h.2⟩, fun h => ⟨h.1, h.2⟩⟩

end Parameters

def Tree.params? : Tree → Option Parameters
  | .function _ _ _ _ _ params .. => some params
  | _ => none

/-- if a tree is a function, its parameters fit their defaults and stand in order -/
def Tree.Regular (starts : List Int) (t : Tree) : Prop :=
  ∀ ps ∈ t.params?, ps.Shaped ∧ ps.InOrder starts

/-- where the lines of a text start -/
def startsOf (text : String) : List Int := (Text.lineStarts text.toList).map Int.ofNat

/-- so it is for every function of a module, at any depth -/
def Module.Regular (m : Module) (text : String) : Prop :=
  ∀ s ∈ m.subtrees, s.Regular (startsOf text)

/-- a grammar keeps the functions of every text regular -/
def Grammar.Regular (g : Grammar) : Prop :=
  ∀ ⦃text o m⦄, g text o = .ok m → m.Regular text

instance (starts : List Int) (t : Tree) : Decidable (t.Regular starts) :=
  inferInstanceAs (Decidable (∀ ps ∈ t.params?, ps.Shaped ∧ ps.InOrder starts))

instance (m : Module) (text : String) : Decidable (m.Regular text) :=
  inferInstanceAs (Decidable (∀ s ∈ m.subtrees, s.Regular (startsOf text)))

theorem Module.lower_eq (m : Module) (text : String) :
    m.lower text = .module 0 (m.body.map (Tree.lower (startsOf text))) := by
  rw [Module.lower, lowerAll_eq_map]
  rfl

namespace Parameters

theorem length_alignRight {α : Type} {n : Nat} {as : List α} (h : as.length ≤ n) :
    (alignRight n as).length = n := by
  rw [alignRight, List.length_append, List.length_replicate, List.length_map]
  omega

theorem filterMap_alignRight {α : Type} (n : Nat) (as : List α) :
    (alignRight n as).filterMap id = as := by
  have hnone : (List.replicate (n - as.length) (none : Option α)).filterMap id = [] := by
    rw [List.filterMap_eq_nil_iff]
    intro a ha
    exact List.eq_of_mem_replicate ha
  rw [alignRight, List.filterMap_append, hnone, List.nil_append, List.filterMap_map]
  exact List.filterMap_some

theorem filterMap_snd_zip {α β : Type} {as : List α} {bs : List (Option β)}
    (h : bs.length ≤ as.length) : (as.zip bs).filterMap (·.2) = bs.filterMap id := by
  have hsnd : (as.zip bs).map Prod.snd = bs := List.map_snd_zip h
  calc (as.zip bs).filterMap (·.2)
      = ((as.zip bs).map Prod.snd).filterMap id := by
        rw [List.filterMap_map]
        rfl
    _ = bs.filterMap id := by rw [hsnd]

section
variable {ps : Parameters}

theorem Shaped.positional_fst (h : ps.Shaped) :
    ps.positionalEntries.map Prod.fst = ps.positional := by
  have hlen := length_alignRight h.defaults_le
  exact List.map_fst_zip (Nat.le_of_eq hlen.symm)

theorem Shaped.positional_snd (h : ps.Shaped) :
    ps.positionalEntries.filterMap (·.2) = ps.defaults := by
  have hlen := length_alignRight h.defaults_le
  rw [positionalEntries, filterMap_snd_zip (Nat.le_of_eq hlen), filterMap_alignRight]

theorem Shaped.byName_fst (h : ps.Shaped) : ps.byNameEntries.map Prod.fst = ps.kwOnly :=
  List.map_fst_zip (Nat.le_of_eq h.kwDefaults_eq.symm)

theorem Shaped.byName_snd (h : ps.Shaped) :
    ps.byNameEntries.filterMap (·.2) = ps.kwDefaults.filterMap id :=
  filterMap_snd_zip (Nat.le_of_eq h.kwDefaults_eq)

end

/-! ## merging what lowering makes of entries -/

theorem written_offsets (starts : List Int) (es : List (Parameter × Option Tree)) :
    (written (Parameter.lower starts) (Tree.lower starts) es).map Node.offset =
      entryOffsets starts es := by
  rw [written, entryOffsets, List.map_flatMap]
  congr
  funext e
  obtain ⟨p, d?⟩ := e
  cases d? with
  | none => rfl
  | some d => exact congrArg (fun x => [p.pos.offset starts, x]) (d.offset_lower starts)

theorem written_pairwise {starts : List Int} {es : List (Parameter × Option Tree)}
    (h : (entryOffsets starts es).IsChain (· < ·)) :
    (written (Parameter.lower starts) (Tree.lower starts) es).Pairwise
      fun m n => m.offset < n.offset := by
  rw [← written_offsets] at h
  exact List.pairwise_map.mp h.pairwise

/-- the lists that lowering makes of entries in order are printed entry by entry -/
theorem merged_lower {starts : List Int} {es : List (Parameter × Option Tree)}
    {params : List Parameter} {defaults : List Tree} (hfst : es.map Prod.fst = params)
    (hsnd : es.filterMap (·.2) = defaults) (h : (entryOffsets starts es).IsChain (· < ·))
    (f : Parameter → Printed) (g : Tree → Printed) :
    Rule.merged (params.map (Parameter.lower starts)) (defaults.map (Tree.lower starts))
        (params.map f) (defaults.map g) =
      Printed.all (es.map fun e => Rule.entry (f e.1) (e.2.map g)) := by
  subst hfst hsnd
  rw [List.map_map, List.map_map]
  refine Rule.merged_entries f g (Parameter.lower starts) (Tree.lower starts) (fun _ => rfl)
    (fun t => t.isParameter_lower starts) (fun t => ?_) (written_pairwise h)
  rw [t.offset?_lower starts, Option.isSome_some]

end Parameters

/-! ### a header over two lines, and on one -/

/-- `def f(a, /, b=x,` and on the next line ` *, c, d=y, **k): x` -/
def sampleText : String := "def f(a, /, b=x,\n *, c, d=y, **k): x\n"

def sampleParameters : Parameters :=
  .mk [{ pos := ⟨some 1, 6⟩, name := "a" }] [{ pos := ⟨some 1, 12⟩, name := "b" }] none
    [{ pos := ⟨some 2, 4⟩, name := "c" }, { pos := ⟨some 2, 7⟩, name := "d" }]
    [none, some (.ident ⟨some 2, 9⟩ "y")]
    (some { pos := ⟨some 2, 14⟩, name := "k" }) [.ident ⟨some 1, 14⟩ "x"]

def sampleModule : Module where
  body := [.function ⟨some 1, 0⟩ "f" false false false sampleParameters
    [.expression ⟨some 2, 18⟩ (.ident ⟨some 2, 18⟩ "x")]]

theorem sampleModule_regular : sampleModule.Regular sampleText := by decide

/-- `sampleText` on one line -/
def joinedText : String := "def f(a, /, b=x, *, c, d=y, **k): x\n"

def joinedModule : Module where
  body := [.function ⟨some 1, 0⟩ "f" false false false
    (.mk [{ pos := ⟨some 1, 6⟩, name := "a" }] [{ pos := ⟨some 1, 12⟩, name := "b" }] none
      [{ pos := ⟨some 1, 20⟩, name := "c" }, { pos := ⟨some 1, 23⟩, name := "d" }]
      [none, some (.ident ⟨some 1, 25⟩ "y")] (some { pos := ⟨some 1, 30⟩, name := "k" })
      [.ident ⟨some 1, 14⟩ "x"])
    [.expression ⟨some 1, 34⟩ (.ident ⟨some 1, 34⟩ "x")]]

end Reflow.Source
