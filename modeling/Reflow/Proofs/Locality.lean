import Mathlib.Data.List.Basic
import Reflow.Print.Path

/-!
# Nodes and the nodes around them

* `Node.children`          the nodes directly inside a node;
* `Node.induct_children`   induction on nodes: what holds of a node if it holds of its children;
* `Node.nodes`             a node with all nodes inside it, at any depth;
* `Node.printBelow_congr`  of the nodes around a node, printing looks at nothing but whether the
                           nearest one is a tuple or a list, and that only for a tuple with items;
* `Path.print_local`       so two paths to one node are printed alike.
-/

namespace Reflow.Node

/-! ## children -/

def children : Node → List Node
  | .module _ body => body
  | .function _ _ params body => params :: body
  | .parameters _ posOnly params defaults vararg kwOnly kwDefaults kwarg =>
    vararg :: kwarg :: (posOnly ++ params ++ defaults ++ kwOnly ++ kwDefaults)
  | .parameter _ _ => []
  | .expression _ value => [value]
  | .call _ callee args keywords => callee :: (args ++ keywords)
  | .keyword _ _ value => [value]
  | .string _ _ => []
  | .number _ _ => []
  | .constant _ _ => []
  | .ident _ _ => []
  | .forLoop _ target iter body orElse => target :: iter :: (body ++ orElse)
  | .tuple _ elts => elts
  | .list _ elts => elts
  | .assign _ targets value => value :: targets
  | .augAssign _ target op value => [target, op, value]
  | .dict _ keys values => keys ++ values
  | .classDef _ _ bases body => bases ++ body
  | .access _ value _ => [value]
  | .compare _ left ops comparators => left :: (ops ++ comparators)
  | .operator _ _ => []
  | .unsupported _ _ _ => []
  | .plain _ => []

theorem sizeOf_children {m n : Node} (h : m ∈ n.children) : sizeOf m < sizeOf n := by
  have hall (ns : List Node) (hm : m ∈ ns) : sizeOf m < sizeOf ns := List.sizeOf_lt_of_mem hm
  cases n <;> grind [children]

theorem forall_children_parameters {P : Node → Prop} {offset : Int}
    {posOnly params defaults : List Node} {vararg : Node} {kwOnly kwDefaults : List Node}
    {kwarg : Node} :
    (∀ m ∈ (parameters offset posOnly params defaults vararg kwOnly kwDefaults kwarg).children, P m) ↔
      P vararg ∧ P kwarg ∧ (∀ m ∈ posOnly, P m) ∧ (∀ m ∈ params, P m) ∧ (∀ m ∈ defaults, P m) ∧
        (∀ m ∈ kwOnly, P m) ∧ ∀ m ∈ kwDefaults, P m := by
  rw [children, List.forall_mem_cons, List.forall_mem_cons, List.forall_mem_append,
    List.forall_mem_append, List.forall_mem_append, List.forall_mem_append, and_assoc, and_assoc,
    and_assoc]

/-- what holds of every node whose children it holds of, holds of all nodes -/
theorem induct_children {P : Node → Prop} (step : ∀ n : Node, (∀ m ∈ n.children, P m) → P n)
    (n : Node) : P n :=
  step n fun m _ => induct_children step m
termination_by sizeOf n
decreasing_by exact sizeOf_children ‹_›

/-! ## the nodes inside a node -/

mutual
/-- a node with all nodes inside it -/
def nodes : Node → List Node
  | n@(.module _ body) => n :: nodesAll body
  | n@(.function _ _ params body) => n :: (params.nodes ++ nodesAll body)
  | n@(.parameters _ posOnly params defaults vararg kwOnly kwDefaults kwarg) =>
    n :: (vararg.nodes ++ kwarg.nodes ++ nodesAll posOnly ++ nodesAll params ++ nodesAll defaults ++
      nodesAll kwOnly ++ nodesAll kwDefaults)
  | n@(.parameter _ _) => [n]
  | n@(.expression _ value) => n :: value.nodes
  | n@(.call _ callee args keywords) => n :: (callee.nodes ++ nodesAll args ++ nodesAll keywords)
  | n@(.keyword _ _ value) => n :: value.nodes
  | n@(.string _ _) => [n]
  | n@(.number _ _) => [n]
  | n@(.constant _ _) => [n]
  | n@(.ident _ _) => [n]
  | n@(.forLoop _ target iter body orElse) =>
    n :: (target.nodes ++ iter.nodes ++ nodesAll body ++ nodesAll orElse)
  | n@(.tuple _ elts) => n :: nodesAll elts
  | n@(.list _ elts) => n :: nodesAll elts
  | n@(.assign _ targets value) => n :: (value.nodes ++ nodesAll targets)
  | n@(.augAssign _ target op value) => n :: (target.nodes ++ op.nodes ++ value.nodes)
  | n@(.dict _ keys values) => n :: (nodesAll keys ++ nodesAll values)
  | n@(.classDef _ _ bases body) => n :: (nodesAll bases ++ nodesAll body)
  | n@(.access _ value _) => n :: value.nodes
  | n@(.compare _ left ops comparators) =>
    n :: (left.nodes ++ nodesAll ops ++ nodesAll comparators)
  | n@(.operator _ _) => [n]
  | n@(.unsupported _ _ _) => [n]
  | n@(.plain _) => [n]
def nodesAll : List Node → List Node
  | [] => []
  | n :: ns => n.nodes ++ nodesAll ns
end

theorem nodesAll_eq (ns : List Node) : nodesAll ns = ns.flatMap nodes := by
  induction ns with
  | nil => rfl
  | cons n ns ih => rw [nodesAll, ih, List.flatMap_cons]

theorem nodes_eq (n : Node) : n.nodes = n :: n.children.flatMap nodes := by
  cases n <;>
    simp only [nodes, children, nodesAll_eq, List.flatMap_cons, List.flatMap_append,
      List.flatMap_nil, List.append_nil, List.append_assoc]

/-- what holds of all nodes inside a node, holds of itself and of all nodes inside its children -/
theorem forall_nodes {Q : Node → Prop} {n : Node} :
    (∀ m ∈ n.nodes, Q m) ↔ Q n ∧ ∀ c ∈ n.children, ∀ m ∈ c.nodes, Q m := by
  rw [nodes_eq, List.forall_mem_cons, List.forall_mem_flatMap]

/-! ## the nodes around a node -/

/-- whether the nearest of the nodes around is a tuple or a list -/
def inSequence (above : List Node) : Bool := above.head?.any isSequence

/-- whether a node is a tuple with items -/
def isFullTuple : Node → Bool
  | .tuple _ elts => !elts.isEmpty
  | _ => false

section
variable {owner : Node} {above above' : List Node}

theorem printAllBelow_congr {ns : List Node} {field : String}
    (h : ∀ n ∈ ns, n.printBelow (owner :: above) = n.printBelow (owner :: above')) :
    printAllBelow above owner field ns = printAllBelow above' owner field ns := by
  rw [printAllBelow_eq_map, printAllBelow_eq_map]
  apply List.map_congr_left
  intro n hn
  rw [h n hn]

end

theorem printBelow_congr (n : Node) : ∀ above above' : List Node,
    (n.isFullTuple = true → inSequence above = inSequence above') →
      n.printBelow above = n.printBelow above' := by
  induction n using induct_children with
  | step n ih =>
    intro above above' habove
    -- the children have `n` itself around them, both times
    have hchild : ∀ m ∈ n.children, m.printBelow (n :: above) = m.printBelow (n :: above') := by
      intro m hm
      apply ih m hm
      intro _
      rfl
    cases n with
    | module offset body =>
      rw [children] at hchild
      rw [printBelow, printBelow, printAllBelow_congr hchild]
    | function offset name params body =>
      obtain ⟨hparams, hbody⟩ := List.forall_mem_cons.mp hchild
      rw [printBelow, printBelow, hparams, printAllBelow_congr hbody]
    | parameters offset posOnly params defaults vararg kwOnly kwDefaults kwarg =>
      obtain ⟨hvararg, hkwarg, hposOnly, hparams, hdefaults, hkwOnly, hkwDefaults⟩ :=
        forall_children_parameters.mp hchild
      rw [printBelow, printBelow, hvararg, hkwarg, printAllBelow_congr hposOnly,
        printAllBelow_congr hparams, printAllBelow_congr hdefaults, printAllBelow_congr hkwOnly,
        printAllBelow_congr hkwDefaults]
    | expression offset value =>
      have hvalue := List.forall_mem_singleton.mp hchild
      rw [printBelow, printBelow, hvalue]
    | call offset callee args keywords =>
      obtain ⟨-, hrest⟩ := List.forall_mem_cons.mp hchild
      obtain ⟨hargs, hkeywords⟩ := List.forall_mem_append.mp hrest
      rw [printBelow, printBelow, printAllBelow_congr hargs, printAllBelow_congr hkeywords]
    | keyword offset name value =>
      have hvalue := List.forall_mem_singleton.mp hchild
      rw [printBelow, printBelow, hvalue]
    | forLoop offset target iter body orElse =>
      obtain ⟨htarget, hrest⟩ := List.forall_mem_cons.mp hchild
      obtain ⟨hiter, hrest⟩ := List.forall_mem_cons.mp hrest
      obtain ⟨hbody, horElse⟩ := List.forall_mem_append.mp hrest
      rw [printBelow, printBelow, htarget, hiter, printAllBelow_congr hbody,
        printAllBelow_congr horElse]
    | tuple offset elts =>
      cases elts with
      | nil =>
        rw [printBelow, printBelow]
        rfl
      | cons elt elts =>
        rw [children] at hchild
        have hnearest : above.head?.any isSequence = above'.head?.any isSequence := habove rfl
        rw [printBelow, printBelow, hnearest, printAllBelow_congr hchild]
    | list offset elts =>
      rw [children] at hchild
      rw [printBelow, printBelow, printAllBelow_congr hchild]
    | assign offset targets value =>
      obtain ⟨hvalue, htargets⟩ := List.forall_mem_cons.mp hchild
      rw [printBelow, printBelow, hvalue, printAllBelow_congr htargets]
    | augAssign offset target op value =>
      obtain ⟨htarget, hrest⟩ := List.forall_mem_cons.mp hchild
      obtain ⟨hop, hrest⟩ := List.forall_mem_cons.mp hrest
      have hvalue := List.forall_mem_singleton.mp hrest
      rw [printBelow, printBelow, htarget, hop, hvalue]
    | dict offset keys values =>
      obtain ⟨hkeys, hvalues⟩ := List.forall_mem_append.mp hchild
      rw [printBelow, printBelow, printAllBelow_congr hkeys, printAllBelow_congr hvalues]
    | classDef offset name bases body =>
      obtain ⟨hbases, hbody⟩ := List.forall_mem_append.mp hchild
      rw [printBelow, printBelow, printAllBelow_congr hbases, printAllBelow_congr hbody]
    | access offset value attr =>
      have hvalue := List.forall_mem_singleton.mp hchild
      rw [printBelow, printBelow, hvalue]
    | compare offset left ops comparators =>
      obtain ⟨hleft, hrest⟩ := List.forall_mem_cons.mp hchild
      obtain ⟨hops, hcomparators⟩ := List.forall_mem_append.mp hrest
      rw [printBelow, printBelow, hleft, printAllBelow_congr hops, printAllBelow_congr hcomparators]
    | _ => rfl

end Reflow.Node

/-! ## paths to one node -/

namespace Reflow

open Doc in
/-- inside a tuple or a list, a tuple with items is printed as elsewhere, between parentheses -/
theorem Rule.tuple_inSequence {elts : List Printed} (hne : elts ≠ []) :
    Rule.tuple true elts =
      (Rule.tuple false elts).map fun d => concat [text "(", d, text ")"] := by
  unfold Rule.tuple
  cases elts with
  | nil => exact absurd rfl hne
  | cons elt elts =>
    show (Printed.all (elt :: elts) >>= _) = Except.map _ (Printed.all (elt :: elts) >>= _)
    cases Printed.all (elt :: elts) with
    | error reason => rfl
    | ok docs => rfl

namespace Path

theorem print_inSequence {p q : Path} (hnode : p.node = q.node) (hfull : p.node.isFullTuple = true)
    (hp : p.inSequence = true) (hq : q.inSequence = false) :
    p.print = q.print.map fun d => .concat [.text "(", d, .text ")"] := by
  obtain ⟨n, above⟩ := p
  obtain ⟨m, above'⟩ := q
  obtain rfl : n = m := hnode
  cases n with
  | tuple offset elts =>
    have hne : elts ≠ [] := by
      intro hnil
      simp [hnil, Node.isFullTuple] at hfull
    -- the items have the tuple itself around them, both times
    have hitems : Node.printAllBelow above (.tuple offset elts) "elts" elts =
        Node.printAllBelow above' (.tuple offset elts) "elts" elts := by
      apply Node.printAllBelow_congr
      intro m _
      apply m.printBelow_congr
      intro _
      rfl
    have hprinted : Node.printAllBelow above' (.tuple offset elts) "elts" elts ≠ [] := by
      rw [Node.printAllBelow_eq_map]
      simpa using hne
    show (Node.tuple offset elts).printBelow above =
      ((Node.tuple offset elts).printBelow above').map _
    rw [Node.printBelow, Node.printBelow]
    show Rule.tuple (Path.inSequence ⟨.tuple offset elts, above⟩) _ =
      (Rule.tuple (Path.inSequence ⟨.tuple offset elts, above'⟩) _).map _
    rw [hp, hq, hitems, Rule.tuple_inSequence hprinted]
  | _ => cases hfull

/-- **Printing is local.**  Two paths to one node are printed alike, as the same document or with
the same error, whatever the roots and the nodes in between are.  Only for a tuple with items it
counts whether the parent is a tuple or a list: there the same document stands between parentheses.
-/
theorem print_local :
    (∀ p q : Path, p.node = q.node → (p.node.isFullTuple = true → p.inSequence = q.inSequence) →
      p.print = q.print) ∧
    ∀ p q : Path, p.node = q.node → p.node.isFullTuple = true → p.inSequence = true →
      q.inSequence = false → p.print = q.print.map fun d => .concat [.text "(", d, .text ")"] := by
  constructor
  · rintro ⟨n, above⟩ ⟨m, above'⟩ hnode haround
    obtain rfl : n = m := hnode
    exact n.printBelow_congr above above' haround
  · intro p q hnode hfull hp hq
    exact print_inSequence hnode hfull hp hq

open Node in
/-- a tuple in a list, in another tuple far below a root, and at a root of its own -/
theorem print_local_tuple :
    let n : Node := tuple 0 [ident 0 "a", string 3 "b"]
    let inList : Path := ⟨n, [list 0 [n]]⟩
    let inTuple : Path := ⟨n, [tuple 7 [n, n], expression 7 (tuple 7 [n, n])]⟩
    inList.print = inTuple.print ∧
      inTuple.print = (root n).print.map fun d => .concat [.text "(", d, .text ")"] := by
  intro n inList inTuple
  obtain ⟨hsame, hparentheses⟩ := print_local
  refine ⟨hsame inList inTuple rfl fun _ => rfl, ?_⟩
  exact hparentheses inTuple (root n) rfl rfl rfl rfl

end Path

end Reflow
