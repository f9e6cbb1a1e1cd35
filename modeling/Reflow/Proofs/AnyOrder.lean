import Reflow.Print.Path
import Reflow.Proofs.Pairing
import Reflow.Proofs.RuleDocuments

/-!
# Parameters and defaults in any order

Offsets may say anything: that defaults come first, that two nodes are at one place, that there are
more defaults than parameters.  Each step along the merged nodes pairs one parameter and passes at
most one node that is a parameter, so the nodes last until every parameter is paired; and a default
is only handed out when one is passed.

* `pairUp_fst`, `pairUp_snd`       the numbers that a walk hands out;
* `pairParameters_fst`, `pairParameters_snd`   so each parameter is paired once, and no default
                                   twice;
* `InRange`                        a result that does not come of a place that is not there;
* `Path.mergeFields_any_order`     merging the fields of a node, whatever the offsets.
-/

namespace Reflow

/-! ## the walk -/

/-- while there are enough parameters ahead, the walk hands out their numbers one after the other -/
theorem pairUp_fst (count param dflt : Nat) (flags : List Bool) (h : count ≤ flags.count true) :
    (pairUp count param dflt flags).map Prod.fst = List.range' param count := by
  fun_induction pairUp count param dflt flags with
  | case1 => rfl
  | case2 => cases h
  | case3 count param dflt flag rest ih =>
    have hrest : count ≤ rest.count true := by
      rw [List.count_cons, List.count_cons_of_ne (by decide)] at h
      split at h <;> omega
    rw [List.map_cons, ih hrest, List.range'_succ]
  | case4 count param dflt flag rest _ ih =>
    have hrest : count ≤ rest.count true := by
      rw [List.count_cons] at h
      split at h <;> omega
    rw [List.map_cons, ih hrest, List.range'_succ]

/-- the walk hands out the numbers of defaults one after the other, as far as it passes defaults -/
theorem pairUp_snd (count param dflt : Nat) (flags : List Bool) :
    ∃ n ≤ flags.count false,
      (pairUp count param dflt flags).filterMap Prod.snd = List.range' dflt n := by
  fun_induction pairUp count param dflt flags with
  | case1 => exact ⟨0, Nat.zero_le _, rfl⟩
  | case2 => exact ⟨0, Nat.zero_le _, rfl⟩
  | case3 count param dflt flag rest ih =>
    obtain ⟨n, hn, hnumbers⟩ := ih
    refine ⟨n + 1, ?_, ?_⟩
    · rw [List.count_cons, List.count_cons_self]
      omega
    · have hhead : ((param, some dflt) : Nat × Option Nat).2 = some dflt := rfl
      rw [List.filterMap_cons_some hhead, hnumbers, List.range'_succ]
  | case4 count param dflt flag rest _ ih =>
    obtain ⟨n, hn, hnumbers⟩ := ih
    refine ⟨n, hn.trans List.count_le_count_cons, ?_⟩
    rw [List.filterMap_cons_none rfl, hnumbers]

/-! ## merged nodes -/

section
variable {params defaults : List Node}

theorem mergedByOffset_perm (params defaults : List Node) :
    (mergedByOffset params defaults).Perm (params ++ defaults) := by
  rw [mergedByOffset_eq]
  exact List.perm_insertionSort _ _

variable (hparams : ∀ n ∈ params, n.isParameter = true)
  (hdefaults : ∀ n ∈ defaults, n.isParameter = false)
include hparams hdefaults

/-- merging neither loses nor adds a node -/
theorem count_mergedByOffset (flag : Bool) :
    ((mergedByOffset params defaults).map Node.isParameter).count flag =
      if flag then params.length else defaults.length := by
  have hp : params.map Node.isParameter = List.replicate params.length true :=
    List.map_eq_replicate_iff.mpr hparams
  have hd : defaults.map Node.isParameter = List.replicate defaults.length false :=
    List.map_eq_replicate_iff.mpr hdefaults
  rw [((mergedByOffset_perm params defaults).map Node.isParameter).count_eq, List.map_append, hp,
    hd, List.count_append, List.count_replicate, List.count_replicate]
  cases flag <;> simp

theorem pairParameters_fst :
    (pairParameters params defaults).map Prod.fst = List.range params.length := by
  rw [List.range_eq_range']
  apply pairUp_fst
  exact Nat.le_of_eq (count_mergedByOffset hparams hdefaults true).symm

theorem pairParameters_snd : ∃ count ≤ defaults.length,
    (pairParameters params defaults).filterMap Prod.snd = List.range count := by
  obtain ⟨count, hcount, hnumbers⟩ := pairUp_snd params.length 0 0
    ((mergedByOffset params defaults).map Node.isParameter)
  rw [count_mergedByOffset hparams hdefaults] at hcount
  refine ⟨count, hcount, ?_⟩
  rw [List.range_eq_range', ← hnumbers]
  rfl

/-- the numbers in pairs are numbers of parameters and of defaults -/
theorem lt_of_mem_pairParameters {pair : Nat × Option Nat}
    (h : pair ∈ pairParameters params defaults) :
    pair.1 < params.length ∧ ∀ j ∈ pair.2, j < defaults.length := by
  constructor
  · have hfst : pair.1 ∈ (pairParameters params defaults).map Prod.fst := List.mem_map_of_mem h
    rw [pairParameters_fst hparams hdefaults] at hfst
    exact List.mem_range.mp hfst
  · intro j hj
    obtain ⟨count, hcount, hnumbers⟩ := pairParameters_snd hparams hdefaults
    have hsnd : j ∈ (pairParameters params defaults).filterMap Prod.snd :=
      List.mem_filterMap.mpr ⟨pair, h, hj⟩
    rw [hnumbers] at hsnd
    exact (List.mem_range.mp hsnd).trans_le hcount

end

/-! ## no place is missing -/

/-- a result, or an error that is not about a place that is not there -/
def InRange {α : Type} (r : Except PrintError α) : Prop := r ≠ .error .outOfRange

namespace InRange
variable {α β : Type}

theorem ok (a : α) : InRange (.ok a) := nofun

theorem bind {r : Except PrintError α} {f : α → Except PrintError β} (hr : InRange r)
    (hf : ∀ a, r = .ok a → InRange (f a)) : InRange (r >>= f) := by
  cases r with
  | ok a => exact hf a rfl
  | error e =>
    intro h
    injection h with h
    exact hr (congrArg Except.error h)

theorem mapM {as : List α} {f : α → Except PrintError β} (h : ∀ a ∈ as, InRange (f a)) :
    InRange (as.mapM f) := by
  induction as with
  | nil => exact ok []
  | cons a as ih =>
    obtain ⟨ha, has⟩ := List.forall_mem_cons.mp h
    rw [List.mapM_cons]
    exact ha.bind fun b _ => (ih has).bind fun bs _ => ok (b :: bs)

theorem all {ps : List Printed} (h : ∀ p ∈ ps, InRange p) : InRange (Printed.all ps) := by
  induction ps with
  | nil => exact ok []
  | cons p ps ih =>
    obtain ⟨hp, hps⟩ := List.forall_mem_cons.mp h
    rw [Printed.all_cons]
    exact hp.bind fun d _ => (ih hps).bind fun ds _ => ok (d :: ds)

/-- a place that is there -/
theorem getD {ps : List Printed} (h : ∀ p ∈ ps, InRange p) {i : Nat} (hi : i < ps.length) :
    InRange ((ps[i]?).getD (.error .outOfRange)) := by
  rw [List.getElem?_eq_getElem hi]
  exact h _ (List.getElem_mem hi)

end InRange

namespace Rule
variable {paramNodes defaultNodes : List Node} {params defaults : List Printed}

theorem withDefaults_inRange {pairs : List (Nat × Option Nat)}
    (hpairs : ∀ pair ∈ pairs, pair.1 < params.length ∧ ∀ j ∈ pair.2, j < defaults.length)
    (hparams : ∀ p ∈ params, InRange p) (hdefaults : ∀ p ∈ defaults, InRange p) :
    InRange (withDefaults pairs params defaults) := by
  apply InRange.all
  refine List.forall_mem_map.mpr fun (i, j?) hpair => ?_
  obtain ⟨hi, hj⟩ := hpairs _ hpair
  refine (InRange.getD hparams hi).bind fun param _ => ?_
  cases j? with
  | none => exact .ok _
  | some j => exact (InRange.getD hdefaults (hj j rfl)).bind fun dflt _ => .ok _

theorem merged_inRange (hparamNodes : ∀ n ∈ paramNodes, n.isParameter = true)
    (hdefaultNodes : ∀ n ∈ defaultNodes, n.isParameter = false)
    (hparamCount : params.length = paramNodes.length)
    (hdefaultCount : defaults.length = defaultNodes.length)
    (hparams : ∀ p ∈ params, InRange p) (hdefaults : ∀ p ∈ defaults, InRange p) :
    InRange (merged paramNodes defaultNodes params defaults) := by
  rw [merged]
  split
  · intro h
    cases h
  · refine withDefaults_inRange (fun pair hpair => ?_) hparams hdefaults
    rw [hparamCount, hdefaultCount]
    exact lt_of_mem_pairParameters hparamNodes hdefaultNodes hpair

/-- there is one part for each parameter -/
theorem length_merged (hparamNodes : ∀ n ∈ paramNodes, n.isParameter = true)
    (hdefaultNodes : ∀ n ∈ defaultNodes, n.isParameter = false) {ds : List Doc}
    (h : merged paramNodes defaultNodes params defaults = .ok ds) :
    ds.length = paramNodes.length := by
  rw [merged] at h
  split at h
  · cases h
  · rw [withDefaults, Printed.all_eq_ok] at h
    have hlength := congrArg List.length h
    have hfst := congrArg List.length (pairParameters_fst hparamNodes hdefaultNodes)
    rw [List.length_map, List.length_map] at hlength
    rw [List.length_map, List.length_range] at hfst
    rw [← hlength, hfst]

end Rule

/-! ## the fields of a node -/

namespace Path
variable {p : Path} {f : Path → Printed} {fields : List String} {field defaultsField : String}

/-- the nodes in a field; none if the field holds something else -/
def nodesIn (p : Path) (field : String) : List Node :=
  match p.node.field? field with
  | some (.nodes ns) => ns
  | _ => []

theorem nodesIn_of_slot {ns : List Node} (h : p.slot field = .ok (.nodes ns)) :
    p.nodesIn field = ns := by
  rw [slot] at h
  split at h
  · next s hs =>
    injection h with h
    rw [nodesIn, hs, h]
  · cases h

theorem slot_inRange (p : Path) (field : String) : InRange (p.slot field) := by
  rw [slot]
  split
  · exact .ok _
  · exact nofun

theorem printChild_inRange {n : Node} (h : InRange (f (p.down n))) :
    InRange (p.printChild f field n) := by
  rw [printChild, Node.present]
  split
  · intro h
    cases h
  · exact h

/-- the nodes in a field, with what is printed for them -/
def printedIn (p : Path) (f : Path → Printed) (field : String) :
    Except PrintError (List Node × List Printed) := do
  match ← p.slot field with
  | .nodes ns => return (ns, p.printChildren f field ns)
  | s => throw (.notSequence s.typeName)

theorem printedIn_ok {r : List Node × List Printed} (h : p.printedIn f field = .ok r) :
    r = (p.nodesIn field, p.printChildren f field (p.nodesIn field)) := by
  obtain ⟨s, hs, h⟩ := bind_eq_ok.mp h
  cases s with
  | nodes ns =>
    injection h with h
    rw [nodesIn_of_slot hs, h]
  | node n => cases h
  | value v => cases h

theorem printedIn_inRange (p : Path) (f : Path → Printed) (field : String) :
    InRange (p.printedIn f field) := by
  refine (p.slot_inRange field).bind fun s _ => ?_
  cases s with
  | nodes ns => exact .ok _
  | node n => exact nofun
  | value v => exact nofun

theorem mapM_printedIn_ok {rs : List (List Node × List Printed)}
    (h : fields.mapM (p.printedIn f) = .ok rs) :
    rs.flatMap (·.1) = fields.flatMap p.nodesIn ∧
      rs.flatMap (·.2) = fields.flatMap fun field => p.printChildren f field (p.nodesIn field) := by
  induction fields generalizing rs with
  | nil =>
    cases h
    exact ⟨rfl, rfl⟩
  | cons field fields ih =>
    rw [List.mapM_cons] at h
    obtain ⟨r, hr, h⟩ := bind_eq_ok.mp h
    obtain ⟨rs', hrs, rfl⟩ := map_eq_ok.mp h
    obtain ⟨hnodes, hprinted⟩ := ih hrs
    rw [printedIn_ok hr]
    simp only [List.flatMap_cons, hnodes, hprinted, and_self]

theorem mergeFields_eq (p : Path) (f : Path → Printed) (fields : List String)
    (defaultsField : String) : p.mergeFields f fields defaultsField = (do
      let params ← fields.mapM (p.printedIn f)
      let defaults ← p.printedIn f defaultsField
      Rule.merged (params.flatMap (·.1)) defaults.1 (params.flatMap (·.2)) defaults.2) := by
  refine congrArg (fields.mapM (p.printedIn f) >>= ·) (funext fun params => ?_)
  rw [printedIn]
  cases p.slot defaultsField with
  | error e => rfl
  | ok s => cases s <;> rfl

section
variable (hparams : ∀ n ∈ fields.flatMap p.nodesIn, n.isParameter = true)
  (hdefaults : ∀ n ∈ p.nodesIn defaultsField, n.isParameter = false)
include hparams hdefaults

theorem mergeFields_inRange (hf : ∀ n ∈ fields.flatMap p.nodesIn ++ p.nodesIn defaultsField,
    InRange (f (p.down n))) : InRange (p.mergeFields f fields defaultsField) := by
  obtain ⟨hfParams, hfDefaults⟩ := List.forall_mem_append.mp hf
  rw [mergeFields_eq]
  refine (InRange.mapM fun field _ => p.printedIn_inRange f field).bind fun params hps => ?_
  refine (p.printedIn_inRange f defaultsField).bind fun defaults hds => ?_
  obtain ⟨hnodes, hprinted⟩ := mapM_printedIn_ok hps
  obtain rfl := printedIn_ok hds
  have hlength : (params.flatMap (·.2)).length = (params.flatMap (·.1)).length := by
    rw [hnodes, hprinted]
    simp only [List.length_flatMap, printChildren, List.length_map]
  rw [← hnodes] at hparams
  refine Rule.merged_inRange hparams hdefaults hlength (List.length_map _) ?_ ?_
  · rw [hprinted]
    intro r hr
    obtain ⟨field, hfield, hr⟩ := List.mem_flatMap.mp hr
    obtain ⟨n, hn, rfl⟩ := List.mem_map.mp hr
    exact printChild_inRange (hfParams n (List.mem_flatMap.mpr ⟨field, hfield, hn⟩))
  · exact List.forall_mem_map.mpr fun n hn => printChild_inRange (hfDefaults n hn)

theorem length_mergeFields {ds : List Doc} (h : p.mergeFields f fields defaultsField = .ok ds) :
    ds.length = (fields.flatMap p.nodesIn).length := by
  rw [mergeFields_eq] at h
  obtain ⟨params, hps, h⟩ := bind_eq_ok.mp h
  obtain ⟨defaults, hds, h⟩ := bind_eq_ok.mp h
  obtain ⟨hnodes, -⟩ := mapM_printedIn_ok hps
  obtain rfl := printedIn_ok hds
  rw [← hnodes] at hparams ⊢
  exact Rule.length_merged hparams hdefaults h

end

/-- **Parameters in any order.**  Wherever parameters and defaults stand, and however many there are
of each, every parameter is paired once, in order, and the first few defaults are, too.  So merging
the fields of a node gives one part for each parameter, and it never looks for a parameter or a
default that is not there: only what prints the nodes may do so. -/
theorem mergeFields_any_order :
    (∀ params defaults : List Node, (∀ n ∈ params, n.isParameter = true) →
      (∀ n ∈ defaults, n.isParameter = false) →
      (pairParameters params defaults).map Prod.fst = List.range params.length ∧
        ∃ count ≤ defaults.length,
          (pairParameters params defaults).filterMap Prod.snd = List.range count) ∧
    ∀ (p : Path) (f : Path → Printed) (fields : List String) (defaultsField : String),
      (∀ n ∈ fields.flatMap p.nodesIn, n.isParameter = true) →
      (∀ n ∈ p.nodesIn defaultsField, n.isParameter = false) →
      (∀ n ∈ fields.flatMap p.nodesIn ++ p.nodesIn defaultsField,
        f (p.down n) ≠ .error .outOfRange) →
      p.mergeFields f fields defaultsField ≠ .error .outOfRange ∧
        ∀ ds, p.mergeFields f fields defaultsField = .ok ds →
          ds.length = (fields.flatMap p.nodesIn).length := by
  constructor
  · intro params defaults hparams hdefaults
    exact ⟨pairParameters_fst hparams hdefaults, pairParameters_snd hparams hdefaults⟩
  · intro p f fields defaultsField hparams hdefaults hf
    refine ⟨mergeFields_inRange hparams hdefaults hf, ?_⟩
    intro ds hds
    exact length_mergeFields hparams hdefaults hds

/-- parameters whose offsets fall, and defaults before all of them, at the place of one, and behind:
one default is handed out, to a parameter that does not stand before it -/
theorem mergeFields_any_order_falling :
    let params : List Node := [.parameter 9 "a", .parameter 4 "b"]
    let defaults : List Node := [.ident (-3) "x", .ident 4 "y", .ident 12 "z"]
    let p := Path.root (.parameters 0 [] params defaults .nothing [] [] .nothing)
    p.nodesIn "args" = params ∧ p.nodesIn "defaults" = defaults ∧
      pairParameters params defaults = [(0, none), (1, some 0)] ∧
      (pairParameters params defaults).map Prod.fst = List.range 2 ∧
      p.mergeFields Path.outline ["args"] "defaults" ≠ .error .outOfRange := by
  intro params defaults p
  have hargs : p.nodesIn "args" = params := rfl
  have hdefaultsIn : p.nodesIn "defaults" = defaults := rfl
  have hparams : ∀ n ∈ params, n.isParameter = true := by decide
  have hdefaults : ∀ n ∈ defaults, n.isParameter = false := by decide
  have hparamsIn : ∀ n ∈ ["args"].flatMap p.nodesIn, n.isParameter = true := by
    rw [List.flatMap_singleton, hargs]
    exact hparams
  rw [← hdefaultsIn] at hdefaults
  obtain ⟨hpairs, hmerge⟩ := mergeFields_any_order
  exact ⟨hargs, hdefaultsIn, rfl, (hpairs params defaults hparams hdefaults).1,
    (hmerge p Path.outline ["args"] "defaults" hparamsIn hdefaults fun _ _ => nofun).1⟩

end Path

end Reflow
