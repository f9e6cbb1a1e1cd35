import Mathlib.Data.List.Basic
import Reflow.Source.Lower

/-!
# Children and subtrees of source trees

* `Tree.children`         the trees directly inside a tree, through parameters and keywords;
* `Tree.induct_children`  induction on trees: what holds of a tree if it holds of its children;
* `Tree.subtrees`         a tree with all trees inside it, at any depth;
* `Tree.offset_lower`     the printed node of a tree starts where the tree starts, and it is neither
                          a parameter nor nothing.

The mutual recursions over lists of trees are maps (`lowerAll_eq_map` and the like), so a proof by
`Tree.induct_children` meets lists only as `List.map`.
-/

namespace Reflow.Source

/-! ## children -/

def Keyword.value : Keyword → Tree
  | .mk _ _ value => value

/-- the defaults of parameters: those of the positional ones, then those of the ones by name -/
def Parameters.trees : Parameters → List Tree
  | .mk _ _ _ _ kwDefaults _ defaults => defaults ++ kwDefaults.filterMap id

def Tree.children : Tree → List Tree
  | .function _ _ _ _ _ params body _ => params.trees ++ body
  | .classDef _ _ _ _ _ bases body => bases ++ body
  | .expression _ value => [value]
  | .call _ callee args keywords => callee :: (args ++ keywords.map Keyword.value)
  | .constant .. => []
  | .ident .. => []
  | .forLoop _ target iter body orElse _ => target :: iter :: (body ++ orElse)
  | .tuple _ elts _ => elts
  | .list _ elts _ => elts
  | .assign _ targets value _ => value :: targets
  | .augAssign _ target _ value => [target, value]
  | .dict _ keys values => keys.filterMap id ++ values
  | .access _ value .. => [value]
  | .compare _ left _ comparators => left :: comparators
  | .other .. => []

theorem Keyword.sizeOf_value (k : Keyword) : sizeOf k.value < sizeOf k := by
  obtain ⟨pos, name, value⟩ := k
  rw [Keyword.value, Keyword.mk.sizeOf_spec]
  omega

theorem sizeOf_present {s : Tree} {ts : List (Option Tree)} (h : s ∈ ts.filterMap id) :
    sizeOf s < sizeOf ts := by
  obtain ⟨t?, ht, hs⟩ := List.mem_filterMap.mp h
  have hlt := List.sizeOf_lt_of_mem ht
  rw [id_eq] at hs
  rw [hs, Option.some.sizeOf_spec] at hlt
  omega

theorem sizeOf_keywords {s : Tree} {ks : List Keyword} (h : s ∈ ks.map Keyword.value) :
    sizeOf s < sizeOf ks := by
  obtain ⟨k, hk, rfl⟩ := List.mem_map.mp h
  exact Nat.lt_trans k.sizeOf_value (List.sizeOf_lt_of_mem hk)

theorem Parameters.sizeOf_trees {s : Tree} {ps : Parameters} (h : s ∈ ps.trees) :
    sizeOf s < sizeOf ps := by
  obtain ⟨posOnly, params, vararg, kwOnly, kwDefaults, kwarg, defaults⟩ := ps
  rw [Parameters.mk.sizeOf_spec]
  rcases List.mem_append.mp h with h | h
  · have hlt := List.sizeOf_lt_of_mem h
    omega
  · have hlt := sizeOf_present h
    omega

theorem Tree.sizeOf_children {s t : Tree} (h : s ∈ t.children) : sizeOf s < sizeOf t := by
  have hall (ts : List Tree) (hs : s ∈ ts) : sizeOf s < sizeOf ts := List.sizeOf_lt_of_mem hs
  have hpresent (ts : List (Option Tree)) (hs : s ∈ ts.filterMap id) := sizeOf_present hs
  have hkeywords (ks : List Keyword) (hs : s ∈ ks.map Keyword.value) := sizeOf_keywords hs
  have hparams (ps : Parameters) (hs : s ∈ ps.trees) := Parameters.sizeOf_trees hs
  cases t <;> grind [children]

/-- what holds of every tree whose children it holds of, holds of all trees -/
theorem Tree.induct_children {P : Tree → Prop} (step : ∀ t : Tree, (∀ s ∈ t.children, P s) → P t)
    (t : Tree) : P t :=
  step t fun s _ => Tree.induct_children step s
termination_by sizeOf t
decreasing_by exact Tree.sizeOf_children ‹_›

/-! ## lists of trees -/

section
variable (starts : List Int)

theorem lowerAll_eq_map (ts : List Tree) : lowerAll starts ts = ts.map (Tree.lower starts) := by
  induction ts with
  | nil => rfl
  | cons t ts ih => rw [lowerAll, ih, List.map_cons]

theorem lowerPresent_eq_map (ts : List (Option Tree)) :
    lowerPresent starts ts = (ts.filterMap id).map (Tree.lower starts) := by
  induction ts with
  | nil => rfl
  | cons t? ts ih =>
    cases t? with
    | none => exact ih
    | some t =>
      rw [lowerPresent, ih]
      rfl

def Keyword.lower : Keyword → Node
  | .mk pos name value => .keyword (pos.offset starts) name (value.lower starts)

theorem lowerKeywords_eq_map (ks : List Keyword) :
    lowerKeywords starts ks = ks.map (Keyword.lower starts) := by
  induction ks with
  | nil => rfl
  | cons k ks ih =>
    obtain ⟨pos, name, value⟩ := k
    rw [lowerKeywords, ih, List.map_cons, Keyword.lower]

end

/-! ## subtrees -/

mutual
def Tree.subtrees : Tree → List Tree
  | t@(.function _ _ _ _ _ params body _) => t :: (params.subtrees ++ subtreesAll body)
  | t@(.classDef _ _ _ _ _ bases body) => t :: (subtreesAll bases ++ subtreesAll body)
  | t@(.expression _ value) => t :: value.subtrees
  | t@(.call _ callee args keywords) =>
    t :: (callee.subtrees ++ subtreesAll args ++ subtreesKeywords keywords)
  | t@(.constant ..) => [t]
  | t@(.ident ..) => [t]
  | t@(.forLoop _ target iter body orElse _) =>
    t :: (target.subtrees ++ iter.subtrees ++ subtreesAll body ++ subtreesAll orElse)
  | t@(.tuple _ elts _) => t :: subtreesAll elts
  | t@(.list _ elts _) => t :: subtreesAll elts
  | t@(.assign _ targets value _) => t :: (value.subtrees ++ subtreesAll targets)
  | t@(.augAssign _ target _ value) => t :: (target.subtrees ++ value.subtrees)
  | t@(.dict _ keys values) => t :: (subtreesPresent keys ++ subtreesAll values)
  | t@(.access _ value ..) => t :: value.subtrees
  | t@(.compare _ left _ comparators) => t :: (left.subtrees ++ subtreesAll comparators)
  | t@(.other ..) => [t]
def subtreesAll : List Tree → List Tree
  | [] => []
  | t :: ts => t.subtrees ++ subtreesAll ts
def subtreesPresent : List (Option Tree) → List Tree
  | [] => []
  | none :: ts => subtreesPresent ts
  | some t :: ts => t.subtrees ++ subtreesPresent ts
def subtreesKeywords : List Keyword → List Tree
  | [] => []
  | .mk _ _ value :: ks => value.subtrees ++ subtreesKeywords ks
def Parameters.subtrees : Parameters → List Tree
  | .mk _ _ _ _ kwDefaults _ defaults => subtreesAll defaults ++ subtreesPresent kwDefaults
end

theorem subtreesAll_eq (ts : List Tree) : subtreesAll ts = ts.flatMap Tree.subtrees := by
  induction ts with
  | nil => rfl
  | cons t ts ih => rw [subtreesAll, ih, List.flatMap_cons]

theorem subtreesPresent_eq (ts : List (Option Tree)) :
    subtreesPresent ts = (ts.filterMap id).flatMap Tree.subtrees := by
  induction ts with
  | nil => rfl
  | cons t? ts ih =>
    cases t? with
    | none => exact ih
    | some t =>
      rw [subtreesPresent, ih]
      rfl

theorem subtreesKeywords_eq (ks : List Keyword) :
    subtreesKeywords ks = (ks.map Keyword.value).flatMap Tree.subtrees := by
  induction ks with
  | nil => rfl
  | cons k ks ih =>
    obtain ⟨pos, name, value⟩ := k
    rw [subtreesKeywords, ih]
    rfl

theorem Parameters.subtrees_eq (ps : Parameters) :
    ps.subtrees = ps.trees.flatMap Tree.subtrees := by
  obtain ⟨posOnly, params, vararg, kwOnly, kwDefaults, kwarg, defaults⟩ := ps
  rw [Parameters.subtrees, trees, subtreesAll_eq, subtreesPresent_eq, List.flatMap_append]

theorem Tree.subtrees_eq (t : Tree) : t.subtrees = t :: t.children.flatMap Tree.subtrees := by
  cases t <;>
    simp only [subtrees, children, subtreesAll_eq, subtreesPresent_eq, subtreesKeywords_eq,
      Parameters.subtrees_eq, List.flatMap_cons, List.flatMap_append, List.flatMap_nil,
      List.append_nil, List.append_assoc]

theorem Tree.forall_subtrees {Q : Tree → Prop} {t : Tree} :
    (∀ s ∈ t.subtrees, Q s) ↔ Q t ∧ ∀ c ∈ t.children, ∀ s ∈ c.subtrees, Q s := by
  rw [Tree.subtrees_eq, List.forall_mem_cons, List.forall_mem_flatMap]

def Module.subtrees (m : Module) : List Tree := subtreesAll m.body

theorem Module.forall_subtrees {Q : Tree → Prop} {m : Module} :
    (∀ s ∈ m.subtrees, Q s) ↔ ∀ c ∈ m.body, ∀ s ∈ c.subtrees, Q s := by
  rw [Module.subtrees, subtreesAll_eq, List.forall_mem_flatMap]

/-! ## the printed node of a tree -/

namespace Tree
variable (starts : List Int)

theorem offset?_lower (t : Tree) : (t.lower starts).offset? = some (t.pos.offset starts) := by
  cases t <;> simp only [lower] <;> (repeat' split) <;> try rfl
  case constant pos value kind? => cases value <;> rfl

theorem offset_lower (t : Tree) : (t.lower starts).offset = t.pos.offset starts := by
  rw [Node.offset, offset?_lower, Option.getD_some]

theorem isParameter_lower (t : Tree) : (t.lower starts).isParameter = false := by
  cases t <;> simp only [lower] <;> (repeat' split) <;> try rfl
  case constant pos value kind? => cases value <;> rfl

theorem isNothing_lower (t : Tree) : (t.lower starts).isNothing = false := by
  have h := t.offset?_lower starts
  cases hn : t.lower starts with
  | plain value => rw [hn] at h; cases h
  | _ => rfl

end Tree

end Reflow.Source
