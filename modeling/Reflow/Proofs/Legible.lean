import Reflow.Proofs.OneLine

/-!
# The parts of a term

The rules put brackets around a tuple inside a tuple or a list, and nowhere else.  A tuple as an
argument, or a comparison inside a comparison, is so printed as something else is.  A term in which
no part would need brackets is told from its text part by part.

Comparisons and members go on to the right of what they begin with, and this may be the only item of
a tuple, which then has its comma there: the term is a first part, on which each further one is put.

* `Node.erase`               a tree without its offsets;
* `Node.isClear`             no part of a node would need brackets;
* `Node.Legible`             terms of which every node is clear;
* `oneLine_links`, `erase_links`   a first operand, with operators and operands after it;
* `oneLine_stem`, `erase_stem`     operands: a stem, and the members that are taken of it;
* `oneLine_row`              the items of a tuple without brackets.
-/

namespace Reflow.Node

open Source (isNameStart isNameChar)

/-! ## offsets, and brackets that are missing -/

mutual
/-- a tree without its offsets -/
def erase : Node → Node
  | .module _ body => .module 0 (eraseAll body)
  | .function _ name params body => .function 0 name params.erase (eraseAll body)
  | .parameters _ posOnly params defaults vararg kwOnly kwDefaults kwarg =>
    .parameters 0 (eraseAll posOnly) (eraseAll params) (eraseAll defaults) vararg.erase
      (eraseAll kwOnly) (eraseAll kwDefaults) kwarg.erase
  | .parameter _ name => .parameter 0 name
  | .expression _ value => .expression 0 value.erase
  | .call _ callee args keywords => .call 0 callee.erase (eraseAll args) (eraseAll keywords)
  | .keyword _ name value => .keyword 0 name value.erase
  | .string _ s => .string 0 s
  | .number _ n => .number 0 n
  | .constant _ value => .constant 0 value
  | .ident _ id => .ident 0 id
  | .forLoop _ target iter body orElse =>
    .forLoop 0 target.erase iter.erase (eraseAll body) (eraseAll orElse)
  | .tuple _ elts => .tuple 0 (eraseAll elts)
  | .list _ elts => .list 0 (eraseAll elts)
  | .assign _ targets value => .assign 0 (eraseAll targets) value.erase
  | .augAssign _ target op value => .augAssign 0 target.erase op.erase value.erase
  | .dict _ keys values => .dict 0 (eraseAll keys) (eraseAll values)
  | .classDef _ name bases body => .classDef 0 name (eraseAll bases) (eraseAll body)
  | .access _ value attr => .access 0 value.erase attr
  | .compare _ left ops comparators => .compare 0 left.erase (eraseAll ops) (eraseAll comparators)
  | .operator _ op => .operator 0 op
  | .unsupported _ kind detail => .unsupported 0 kind detail
  | .plain value => .plain value
def eraseAll : List Node → List Node
  | [] => []
  | n :: ns => n.erase :: eraseAll ns
end

theorem eraseAll_eq_map (ns : List Node) : eraseAll ns = ns.map erase := by
  induction ns with
  | nil => rfl
  | cons n ns ih => rw [eraseAll, ih, List.map_cons]

def isCompare : Node → Bool
  | .compare .. => true
  | _ => false

/-- whether a node needs no brackets behind an operator -/
def isBare (n : Node) : Bool := !n.isFullTuple && !n.isCompare

/-- whether a node is anything but a tuple of several items -/
def isLone : Node → Bool
  | .tuple _ elts => elts.length ≤ 1
  | _ => true

/-- the item of a tuple that has just one; any other node stands for itself -/
def sole : Node → Node
  | .tuple _ [n] => n
  | n => n

/-- whether no part of a node would need brackets: an argument is no tuple of several items, nor is
what a comparison or a member begins with, which is no comparison either -/
def isClear : Node → Bool
  | .call _ _ args _ => args.all isLone
  | .access _ value _ => value.isLone && !value.sole.isCompare
  | .compare _ left _ comparators => left.isLone && !left.isCompare && comparators.all isBare
  | _ => true

/-- terms that can be told apart by their texts -/
structure Legible (n : Node) : Prop where
  term : Term .expression n
  clear : ∀ m ∈ n.nodes, m.isClear = true

namespace Legible

theorem tuple {offset : Int} {elts : List Node} (h : Legible (.tuple offset elts)) :
    ∀ n ∈ elts, Legible n :=
  fun n hn => ⟨term_tuple.mp h.term n hn, (forall_nodes.mp h.clear).2 n hn⟩

theorem list {offset : Int} {elts : List Node} (h : Legible (.list offset elts)) :
    ∀ n ∈ elts, Legible n :=
  fun n hn => ⟨term_list.mp h.term n hn, (forall_nodes.mp h.clear).2 n hn⟩

theorem dict {offset : Int} {keys values : List Node} (h : Legible (.dict offset keys values)) :
    keys.length = values.length ∧ (∀ n ∈ keys, Legible n) ∧ ∀ n ∈ values, Legible n := by
  obtain ⟨hlength, hkeys, hvalues⟩ := term_dict.mp h.term
  have hchildren := (forall_nodes.mp h.clear).2
  exact ⟨hlength, fun n hn => ⟨hkeys n hn, hchildren n (List.mem_append_left _ hn)⟩,
    fun n hn => ⟨hvalues n hn, hchildren n (List.mem_append_right _ hn)⟩⟩

theorem sole {n : Node} (h : Legible n) : Legible n.sole := by
  cases n with
  | tuple offset elts =>
    match elts with
    | [] => exact h
    | [m] => exact h.tuple m (List.mem_singleton_self m)
    | _ :: _ :: _ => exact h
  | _ => exact h

theorem access {offset : Int} {value : Node} {attr : String}
    (h : Legible (.access offset value attr)) :
    Legible value.sole ∧ value.isLone = true ∧ value.sole.isCompare = false ∧ IsName attr := by
  obtain ⟨hvalue, hattr⟩ := term_access.mp h.term
  obtain ⟨hbrackets, hchildren⟩ := forall_nodes.mp h.clear
  obtain ⟨hlone, hplain⟩ := (Bool.and_eq_true _ _).mp hbrackets
  have hlegible : Legible value := ⟨hvalue, hchildren value (List.mem_singleton_self _)⟩
  exact ⟨hlegible.sole, hlone, (Bool.not_eq_true' _).mp hplain, hattr⟩

theorem compare {offset : Int} {left : Node} {ops comparators : List Node}
    (h : Legible (.compare offset left ops comparators)) :
    (Legible left.sole ∧ left.isLone = true ∧ left.isCompare = false) ∧
      (ops ≠ [] ∧ ops.length = comparators.length) ∧ (∀ op ∈ ops, Term .operator op) ∧
      ∀ n ∈ comparators, Legible n ∧ n.isBare = true := by
  obtain ⟨hleft, hpairs, hops, hcomparators⟩ := term_compare.mp h.term
  obtain ⟨hbrackets, hchildren⟩ := forall_nodes.mp h.clear
  obtain ⟨hfirst, hbares⟩ := (Bool.and_eq_true _ _).mp hbrackets
  obtain ⟨hlone, hplain⟩ := (Bool.and_eq_true _ _).mp hfirst
  have hbares := List.all_eq_true.mp hbares
  obtain ⟨hleftClear, hrest⟩ := List.forall_mem_cons.mp hchildren
  have hlegible : Legible left := ⟨hleft, hleftClear⟩
  exact ⟨⟨hlegible.sole, hlone, (Bool.not_eq_true' _).mp hplain⟩, hpairs, hops,
    fun n hn => ⟨⟨hcomparators n hn, hrest n (List.mem_append_right _ hn)⟩, hbares n hn⟩⟩

end Legible

/-- an argument that needs no brackets -/
def Argument (n : Node) : Prop := Legible n ∧ n.isLone = true

/-- an argument by name -/
def Keyword (k : Node) : Prop :=
  ∃ offset name value, k = .keyword offset name value ∧ (∀ s ∈ name, IsName s) ∧ Legible value

/-- what a call is applied to, and then the arguments by name -/
structure Arguments (args keywords : List Node) : Prop where
  args : ∀ n ∈ args, Argument n
  keywords : ∀ k ∈ keywords, Keyword k

theorem Legible.call {offset : Int} {callee : Node} {args keywords : List Node}
    (h : Legible (.call offset callee args keywords)) :
    (∃ place id, callee = .ident place id ∧ IsName id) ∧ Arguments args keywords := by
  obtain ⟨hterm, hclear⟩ := h
  cases hterm with
  | call hid hargs hkeywords =>
    obtain ⟨hbrackets, hchildren⟩ := forall_nodes.mp hclear
    have harguments := List.all_eq_true.mp hbrackets
    obtain ⟨-, hrest⟩ := List.forall_mem_cons.mp hchildren
    obtain ⟨hargsClear, hkeywordsClear⟩ := List.forall_mem_append.mp hrest
    refine ⟨⟨_, _, rfl, hid⟩, fun n hn => ⟨⟨hargs n hn, hargsClear n hn⟩, harguments n hn⟩, ?_⟩
    intro k hk
    have hkclear := hkeywordsClear k hk
    cases hkeywords k hk with
    | @keyword offset name value hname hvalue =>
      exact ⟨offset, name, value, rfl, hname, hvalue,
        (forall_nodes.mp hkclear).2 value (List.mem_singleton_self _)⟩

/-! ## what a term begins with -/

/-- brackets around a tuple are all that the place of a node decides -/
theorem oneLine_eq {n : Node} (h : n.isFullTuple = false) (b : Bool) :
    n.oneLine b = n.oneLine false := by
  cases n with
  | tuple offset elts =>
    cases elts with
    | nil => rfl
    | cons n elts => cases h
  | number offset n => cases n <;> rfl
  | _ => rfl

theorem isBare_iff {n : Node} :
    n.isBare = true ↔ n.isFullTuple = false ∧ n.isCompare = false := by
  rw [isBare, Bool.and_eq_true, Bool.not_eq_true', Bool.not_eq_true']

theorem oneLine_bare {n : Node} (h : n.isBare = true) : n.oneLine false = n.oneLine true :=
  (oneLine_eq (isBare_iff.mp h).1 true).symm

/-- whether a node is a tuple of just one item -/
def isSingle : Node → Bool
  | .tuple _ [_] => true
  | _ => false

/-- the comma after a single item -/
def comma (single : Bool) : List Char := if single then [','] else []

/-- a node, or the tuple of which it is the only item -/
def wrapped (single : Bool) (n : Node) : Node := if single then .tuple 0 [n] else n

theorem oneLine_sole {n : Node} (h : n.isLone = true) :
    n.oneLine false = n.sole.oneLine true ++ comma n.isSingle := by
  have hplain {n : Node} (h : n.isFullTuple = false) : n.oneLine false = n.oneLine true ++ [] := by
    rw [List.append_nil, oneLine_eq h true]
  cases n with
  | tuple offset elts =>
    match elts with
    | [] => exact hplain rfl
    | [m] => rfl
    | _ :: _ :: _ => simp [isLone] at h
  | _ => exact hplain rfl

theorem erase_sole (n : Node) : n.erase = n.sole.erase.wrapped n.isSingle := by
  cases n with
  | tuple offset elts =>
    match elts with
    | [] => rfl
    | [m] => rfl
    | _ :: _ :: _ => rfl
  | _ => rfl

theorem sole_eq {n : Node} (h : n.isSingle = false) : n.sole = n := by
  cases n with
  | tuple offset elts =>
    match elts with
    | [] => rfl
    | [m] => cases h
    | _ :: _ :: _ => rfl
  | _ => rfl

theorem sizeOf_sole (n : Node) : sizeOf n.sole ≤ sizeOf n := by
  cases n with
  | tuple offset elts =>
    match elts with
    | [] => exact Nat.le_refl _
    | [m] =>
      have hchild : m ∈ (tuple offset [m]).children := List.mem_singleton_self m
      exact (sizeOf_children hchild).le
    | _ :: _ :: _ => exact Nat.le_refl _
  | _ => exact Nat.le_refl _

theorem sizeOf_sole_child {m n : Node} (h : m ∈ n.children) : sizeOf m.sole < sizeOf n :=
  Nat.lt_of_le_of_lt m.sizeOf_sole (sizeOf_children h)

/-- induction where a child that is a tuple of one item is passed over -/
theorem induct_sole {P : Node → Prop} (step : ∀ n : Node, (∀ m ∈ n.children, P m ∧ P m.sole) → P n)
    (n : Node) : P n :=
  step n fun m _ => ⟨induct_sole step m, induct_sole step m.sole⟩
termination_by sizeOf n
decreasing_by
  · exact sizeOf_children ‹_›
  · exact sizeOf_sole_child ‹_›

/-- a term without operators around its parts -/
structure Operand (n : Node) : Prop where
  legible : Legible n
  plain : n.isCompare = false

/-! ## operands and operators -/

/-- an operator with the operand after it; what stands before may be the item of a tuple -/
structure Link where
  single : Bool
  op : Node
  operand : Node

namespace Link

structure Legible (link : Link) : Prop where
  op : Term .operator link.op
  operand : Operand link.operand

def text (link : Link) : List Char :=
  comma link.single ++ ' ' :: (link.op.oneLine false ++ ' ' :: link.operand.oneLine true)

def erase (link : Link) : Link := ⟨link.single, link.op.erase, link.operand.erase⟩

/-- the operators of one comparison with their operands, of which the first is after what the
comparison begins with -/
def ofPairs (single : Bool) : List (Node × Node) → List Link
  | [] => []
  | (op, operand) :: pairs => ⟨single, op, operand⟩ :: pairs.map fun (op, operand) =>
      ⟨false, op, operand⟩

theorem text_ofPairs (single : Bool) {pairs : List (Node × Node)} (hne : pairs ≠ []) :
    (ofPairs single pairs).flatMap text =
      comma single ++ pairs.flatMap fun (op, operand) =>
        ' ' :: (op.oneLine false ++ ' ' :: operand.oneLine true) := by
  cases pairs with
  | nil => exact absurd rfl hne
  | cons pair pairs =>
    rw [ofPairs, List.flatMap_cons, List.flatMap_map, List.flatMap_cons, text, List.append_assoc]
    rfl

theorem map_erase_ofPairs (single : Bool) (pairs : List (Node × Node)) :
    (ofPairs single pairs).map erase =
      ofPairs single (pairs.map (Prod.map Node.erase Node.erase)) := by
  cases pairs with
  | nil => rfl
  | cons pair pairs =>
    rw [ofPairs, List.map_cons, List.map_map, List.map_cons, ofPairs, List.map_map]
    rfl

theorem forall_ofPairs {Q : Node × Node → Prop} {single : Bool} {pairs : List (Node × Node)}
    (h : ∀ pair ∈ pairs, Q pair) : ∀ link ∈ ofPairs single pairs, Q (link.op, link.operand) := by
  cases pairs with
  | nil => exact List.forall_mem_nil _
  | cons pair pairs =>
    obtain ⟨hpair, hpairs⟩ := List.forall_mem_cons.mp h
    exact List.forall_mem_cons.mpr ⟨hpair, List.forall_mem_map.mpr hpairs⟩

end Link

/-- the first operand of all comparisons that a node begins with -/
def firstOperand : Node → Node
  | .compare _ left _ _ => left.sole.firstOperand
  | n => n
termination_by n => sizeOf n
decreasing_by exact sizeOf_sole_child List.mem_cons_self

/-- what follows the first operand, from left to right -/
def links : Node → List Link
  | .compare _ left ops comparators =>
    left.sole.links ++ Link.ofPairs left.isSingle (ops.zip comparators)
  | _ => []
termination_by n => sizeOf n
decreasing_by exact sizeOf_sole_child List.mem_cons_self

theorem links_eq {n : Node} (h : n.isCompare = false) : n.firstOperand = n ∧ n.links = [] := by
  have hne : ∀ offset left ops comparators, n = compare offset left ops comparators → False := by
    rintro offset left ops comparators rfl
    cases h
  exact ⟨firstOperand.eq_2 n hne, links.eq_2 n hne⟩

/-- a node with a further operand: one more of the same comparison, unless there is none yet -/
def linked (n : Node) (link : Link) : Node :=
  match link.single, n with
  | false, .compare _ left ops comparators =>
    .compare 0 left (ops ++ [link.op]) (comparators ++ [link.operand])
  | single, n => .compare 0 (n.wrapped single) [link.op] [link.operand]

theorem foldl_linked (left : Node) (ops comparators : List Node) (pairs : List (Node × Node)) :
    (pairs.map fun (op, operand) => (⟨false, op, operand⟩ : Link)).foldl linked
        (.compare 0 left ops comparators) =
      .compare 0 left (ops ++ pairs.map Prod.fst) (comparators ++ pairs.map Prod.snd) := by
  induction pairs generalizing ops comparators with
  | nil => simp
  | cons pair pairs ih =>
    have hrest := ih (ops ++ [pair.1]) (comparators ++ [pair.2])
    rw [List.append_assoc, List.append_assoc] at hrest
    exact hrest

/-- the operands of one comparison make up the comparison -/
theorem foldl_ofPairs {n : Node} {single : Bool} {pairs : List (Node × Node)} (hne : pairs ≠ [])
    (h : single = false → n.isCompare = false) :
    (Link.ofPairs single pairs).foldl linked n =
      .compare 0 (n.wrapped single) (pairs.map Prod.fst) (pairs.map Prod.snd) := by
  cases pairs with
  | nil => exact absurd rfl hne
  | cons pair pairs =>
    have hfirst : n.linked ⟨single, pair.1, pair.2⟩ =
        .compare 0 (n.wrapped single) [pair.1] [pair.2] := by
      cases single with
      | true => rfl
      | false =>
        have hplain := h rfl
        cases n with
        | compare => cases hplain
        | _ => rfl
    rw [Link.ofPairs, List.foldl_cons, hfirst, foldl_linked]
    rfl

theorem isCompare_erase (n : Node) : n.erase.isCompare = n.isCompare := by
  cases n <;> rfl

namespace Legible
variable {n : Node}

theorem links (h : Legible n) : Operand n.firstOperand ∧ ∀ link ∈ n.links, link.Legible := by
  induction n using induct_sole with
  | step n ih =>
    cases n with
    | compare offset left ops comparators =>
      obtain ⟨⟨hleft, -⟩, -, hops, hcomparators⟩ := h.compare
      obtain ⟨hfirst, hlinks⟩ := (ih left List.mem_cons_self).2 hleft
      rw [firstOperand, Node.links]
      refine ⟨hfirst, List.forall_mem_append.mpr ⟨hlinks, fun link hlink => ?_⟩⟩
      have hmem := Link.forall_ofPairs (fun _ => List.of_mem_zip) link hlink
      obtain ⟨hlegible, hbare⟩ := hcomparators _ hmem.2
      exact ⟨hops _ hmem.1, hlegible, (isBare_iff.mp hbare).2⟩
    | _ =>
      rw [(links_eq rfl).1, (links_eq rfl).2]
      exact ⟨⟨h, rfl⟩, List.forall_mem_nil _⟩

theorem pairs_ne_nil {offset : Int} {left : Node} {ops comparators : List Node}
    (h : Legible (.compare offset left ops comparators)) : ops.zip comparators ≠ [] := by
  obtain ⟨-, ⟨hne, hlength⟩, -⟩ := h.compare
  intro hzip
  rcases List.zip_eq_nil_iff.mp hzip with rfl | rfl
  · exact hne rfl
  · exact hne (List.length_eq_zero_iff.mp hlength)

theorem oneLine_links (h : Legible n) :
    n.oneLine true = n.firstOperand.oneLine true ++ n.links.flatMap Link.text := by
  induction n using induct_sole with
  | step n ih =>
    cases n with
    | compare offset left ops comparators =>
      obtain ⟨⟨hleft, hlone, -⟩, -, -, hcomparators⟩ := h.compare
      have hright : comparators.map (oneLine false) = comparators.map (oneLine true) :=
        List.map_congr_left fun c hc => oneLine_bare (hcomparators c hc).2
      rw [firstOperand, Node.links, List.flatMap_append, Link.text_ofPairs _ h.pairs_ne_nil,
        ← List.append_assoc, ← (ih left List.mem_cons_self).2 hleft, ← List.append_assoc,
        ← oneLine_sole hlone, oneLine, oneLines_eq_map, oneLines_eq_map, hright, List.zipWith_map,
        ← List.map_uncurry_zip_eq_zipWith, ← List.flatMap_def]
      rfl
    | _ =>
      rw [(links_eq rfl).1, (links_eq rfl).2]
      exact (List.append_nil _).symm

theorem erase_links (h : Legible n) :
    n.erase = (n.links.map Link.erase).foldl linked n.firstOperand.erase := by
  induction n using induct_sole with
  | step n ih =>
    cases n with
    | compare offset left ops comparators =>
      obtain ⟨⟨hleft, -, hplain⟩, ⟨-, hlength⟩, -⟩ := h.compare
      have hlength : (ops.map erase).length = (comparators.map erase).length := by
        rw [List.length_map, List.length_map, hlength]
      have hne : (ops.zip comparators).map (Prod.map erase erase) ≠ [] :=
        mt List.map_eq_nil_iff.mp h.pairs_ne_nil
      have hfirst : left.isSingle = false → left.sole.erase.isCompare = false := by
        intro hsingle
        rw [sole_eq hsingle, isCompare_erase, hplain]
      rw [firstOperand, Node.links, List.map_append, List.foldl_append,
        ← (ih left List.mem_cons_self).2 hleft, Link.map_erase_ofPairs, foldl_ofPairs hne hfirst,
        ← List.zip_map, List.map_fst_zip hlength.le, List.map_snd_zip hlength.ge, ← erase_sole,
        erase, eraseAll_eq_map, eraseAll_eq_map]
    | _ =>
      rw [(links_eq rfl).1, (links_eq rfl).2]
      rfl

end Legible

/-! ## stems and members -/

/-- a member; what it is taken of may be the item of a tuple -/
structure Member where
  single : Bool
  attr : String

def Member.text (m : Member) : List Char := comma m.single ++ '.' :: m.attr.toList

/-- what is left of an expression without the members that are taken of it -/
def stem : Node → Node
  | .access _ value _ => value.sole.stem
  | n => n
termination_by n => sizeOf n
decreasing_by exact sizeOf_sole_child (List.mem_singleton_self _)

/-- the members that are taken of a stem, one after the other -/
def members : Node → List Member
  | .access _ value attr => value.sole.members ++ [⟨value.isSingle, attr⟩]
  | _ => []
termination_by n => sizeOf n
decreasing_by exact sizeOf_sole_child (List.mem_singleton_self _)

def isAccess : Node → Bool
  | .access .. => true
  | _ => false

theorem stem_eq {n : Node} (h : n.isAccess = false) : n.stem = n ∧ n.members = [] := by
  have hne : ∀ offset value attr, n = access offset value attr → False := by
    rintro offset value attr rfl
    cases h
  exact ⟨stem.eq_2 n hne, members.eq_2 n hne⟩

/-- a member of a node -/
def member (n : Node) (m : Member) : Node := .access 0 (n.wrapped m.single) m.attr

theorem erase_stem (n : Node) : n.erase = n.members.foldl member n.stem.erase := by
  induction n using induct_sole with
  | step n ih =>
    cases n with
    | access offset value attr =>
      have hvalue := (ih value (List.mem_singleton_self _)).2
      rw [stem, members, List.foldl_concat, ← hvalue, member, ← erase_sole]
      rfl
    | _ =>
      rw [(stem_eq rfl).1, (stem_eq rfl).2]
      rfl

namespace Operand
variable {n : Node}

theorem members (h : Operand n) : ∀ m ∈ n.members, IsName m.attr := by
  induction n using induct_sole with
  | step n ih =>
    cases n with
    | access offset value attr =>
      obtain ⟨hvalue, -, hplain, hattr⟩ := h.legible.access
      have hmembers := (ih value (List.mem_singleton_self _)).2 ⟨hvalue, hplain⟩
      rw [Node.members]
      exact List.forall_mem_append.mpr ⟨hmembers, List.forall_mem_singleton.mpr hattr⟩
    | _ =>
      rw [(stem_eq rfl).2]
      exact List.forall_mem_nil _

theorem oneLine_stem (h : Operand n) :
    n.oneLine true = n.stem.oneLine true ++ n.members.flatMap Member.text := by
  induction n using induct_sole with
  | step n ih =>
    cases n with
    | access offset value attr =>
      obtain ⟨hvalue, hlone, hplain, -⟩ := h.legible.access
      have hstem := (ih value (List.mem_singleton_self _)).2 ⟨hvalue, hplain⟩
      rw [oneLine, oneLine_sole hlone, hstem, stem, Node.members, List.flatMap_append,
        List.flatMap_singleton, Member.text, List.append_assoc, List.append_assoc]
    | _ =>
      rw [(stem_eq rfl).1, (stem_eq rfl).2]
      exact (List.append_nil _).symm

end Operand

/-! ## atoms -/

/-- the node of a word: a constant, a number or a name -/
def ofWord (w : List Char) : Node :=
  if w = constantText none then .constant 0 none
  else if w = constantText (some true) then .constant 0 (some true)
  else if w = constantText (some false) then .constant 0 (some false)
  else if w.head?.any Char.isDigit then .number 0 (.int (Nat.ofDigitChars 10 w 0))
  else .ident 0 (String.ofList w)

theorem ofWord_constant (value : Option Bool) :
    ofWord (constantText value) = .constant 0 value := by
  rcases value with _ | _ | _ <;> rfl

theorem toNat_of_isAlpha {c : Char} (h : c.isAlpha = true) : 65 ≤ c.toNat := by
  rcases Bool.or_eq_true_iff.mp h with hupper | hlower
  · have hrange : c.val ≥ 'A'.val ∧ c.val ≤ 'Z'.val := of_decide_eq_true hupper
    exact UInt32.le_iff_toNat_le.mp hrange.1
  · have hlow : 97 ≤ c.toNat :=
      UInt32.le_iff_toNat_le.mp (of_decide_eq_true ((Bool.and_eq_true _ _).mp hlower).1)
    omega

theorem isDigit_of_isNameStart {c : Char} (h : isNameStart c = true) : c.isDigit = false := by
  by_contra hdigit
  rw [Bool.not_eq_false, Char.isDigit_iff_toNat] at hdigit
  obtain ⟨hzero, hnine⟩ : 48 ≤ c.toNat ∧ c.toNat ≤ 57 := hdigit
  rw [isNameStart, Bool.or_eq_true, Bool.or_eq_true, beq_iff_eq, decide_eq_true_eq] at h
  rcases h with (halpha | rfl) | hlow
  · have hletter := toNat_of_isAlpha halpha
    omega
  · exact absurd hnine (by decide)
  · omega

theorem IsName.ofWord {s : String} (h : IsName s) : ofWord s.toList = .ident 0 s := by
  have hne (value : Option Bool) : s.toList ≠ constantText value := by
    intro heq
    have hs : s = String.ofList (constantText value) := by rw [← heq, String.ofList_toList]
    have hfree := h.free
    rw [hs] at hfree
    rcases value with _ | _ | _ <;> cases hfree
  have hdigit : s.toList.head?.any Char.isDigit = false := by
    have hfirst := h.first
    cases hhead : s.toList.head? with
    | none => rfl
    | some c =>
      rw [hhead] at hfirst
      exact isDigit_of_isNameStart hfirst
  rw [Node.ofWord, if_neg (hne _), if_neg (hne _), if_neg (hne _), hdigit,
    if_neg Bool.false_ne_true, String.ofList_toList]

theorem ofWord_int {n : Int} (hn : 0 ≤ n) : ofWord (toString n).toList = .number 0 (.int n) := by
  obtain ⟨m, rfl⟩ := Int.eq_ofNat_of_zero_le hn
  have hdigits : (toString (m : Int)).toList = Nat.toDigits 10 m := Nat.toList_repr
  have hfirst : (Nat.toDigits 10 m).head?.any Char.isDigit = true := by
    obtain ⟨c, cs, hcs⟩ := List.exists_cons_of_ne_nil (Nat.toDigits_ne_nil (n := m) (b := 10))
    have hc : c ∈ Nat.toDigits 10 m := hcs ▸ List.mem_cons_self
    rw [hcs]
    exact Nat.isDigit_of_mem_toDigits (by decide) (by decide) hc
  have hne (value : Option Bool) : Nat.toDigits 10 m ≠ constantText value := by
    intro heq
    rw [heq] at hfirst
    rcases value with _ | _ | _ <;> cases hfirst
  rw [hdigits, ofWord, if_neg (hne _), if_neg (hne _), if_neg (hne _), if_pos hfirst,
    Nat.ofDigitChars_toDigits (by decide) (by decide)]

/-- an entry of a dictionary -/
def entryText (entry : Node × Node) : List Char :=
  entry.1.oneLine false ++ ':' :: ' ' :: entry.2.oneLine false

/-- the brackets that a term may begin with, or that may follow the name of what is called -/
def brackets : List Char := ['(', '[', '\x7b']

/-- nodes that are no comparisons and no members, each with its text: a word, and what is in
brackets after it -/
inductive Atom : Node → List Char → List Char → Prop where
  | word {n w} (hword : IsWord w) (htext : n.oneLine true = w) (herase : n.erase = ofWord w) :
    Atom n w []
  | call {offset place id args keywords} (hid : IsName id)
    (harguments : Arguments args keywords) :
    Atom (.call offset (.ident place id) args keywords) id.toList
      ('(' :: (commas ((args ++ keywords).map (oneLine false)) ++ [')']))
  | tuple {offset elts} (helts : ∀ n ∈ elts, Legible n) :
    Atom (.tuple offset elts) [] ('(' :: (items (elts.map (oneLine true)) ++ [')']))
  | list {offset elts} (helts : ∀ n ∈ elts, Legible n) :
    Atom (.list offset elts) [] ('[' :: (commas (elts.map (oneLine true)) ++ [']']))
  | dict {offset keys values} (hlength : keys.length = values.length)
    (hkeys : ∀ n ∈ keys, Legible n) (hvalues : ∀ n ∈ values, Legible n) :
    Atom (.dict offset keys values) []
      ('\x7b' :: ([','].intercalate ((keys.zip values).map entryText) ++ ['\x7d']))

theorem Atom.text {n : Node} {w body : List Char} (h : Atom n w body) :
    n.oneLine true = w ++ body := by
  cases h with
  | word _ htext _ => rw [htext, List.append_nil]
  | call => rw [oneLine, oneLines_eq_map, oneLines_eq_map, ← List.map_append]; rfl
  | @tuple offset elts =>
    cases elts with
    | nil => rfl
    | cons n elts => rw [oneLine, oneLines_eq_map]; rfl
  | list => rw [oneLine, oneLines_eq_map]; rfl
  | dict =>
    rw [oneLine, oneLines_eq_map, oneLines_eq_map, List.zipWith_map,
      ← List.map_uncurry_zip_eq_zipWith]
    rfl

/-- words are made of characters of names, and what is in brackets begins with its bracket -/
theorem Atom.chars {n : Node} {w body : List Char} (h : Atom n w body) :
    (∀ c ∈ w, isNameChar c = true) ∧ (∀ c ∈ body.head?, c ∈ brackets) ∧ (w = [] → body ≠ []) := by
  have hbracket (c : Char) (cs : List Char) (hc : c ∈ brackets) :
      ∀ c' ∈ (c :: cs).head?, c' ∈ brackets := by
    rintro _ ⟨⟩
    exact hc
  cases h with
  | word hword =>
    exact ⟨hword.chars, fun c hc => (Option.not_mem_none c hc).elim,
      fun hnil => absurd hnil hword.ne⟩
  | call hid => exact ⟨hid.chars, hbracket _ _ (by decide), fun _ => List.cons_ne_nil _ _⟩
  | tuple => exact ⟨List.forall_mem_nil _, hbracket _ _ (by decide), fun _ => List.cons_ne_nil _ _⟩
  | list => exact ⟨List.forall_mem_nil _, hbracket _ _ (by decide), fun _ => List.cons_ne_nil _ _⟩
  | dict => exact ⟨List.forall_mem_nil _, hbracket _ _ (by decide), fun _ => List.cons_ne_nil _ _⟩

theorem Operand.stem_atom {n : Node} (h : Operand n) : ∃ w body, Atom n.stem w body := by
  induction n using induct_sole with
  | step n ih =>
    have hlegible := h.legible
    cases n with
    | access offset value attr =>
      obtain ⟨hvalue, -, hplain, -⟩ := hlegible.access
      rw [stem]
      exact (ih value (List.mem_singleton_self _)).2 ⟨hvalue, hplain⟩
    | compare => cases h.plain
    | call offset callee args keywords =>
      obtain ⟨⟨place, id, rfl, hid⟩, harguments⟩ := hlegible.call
      rw [(stem_eq rfl).1]
      exact ⟨_, _, .call hid harguments⟩
    | tuple offset elts =>
      rw [(stem_eq rfl).1]
      exact ⟨_, _, .tuple hlegible.tuple⟩
    | list offset elts =>
      rw [(stem_eq rfl).1]
      exact ⟨_, _, .list hlegible.list⟩
    | dict offset keys values =>
      obtain ⟨hlength, hkeys, hvalues⟩ := hlegible.dict
      rw [(stem_eq rfl).1]
      exact ⟨_, _, .dict hlength hkeys hvalues⟩
    | ident offset id =>
      have hid := term_ident.mp hlegible.term
      rw [(stem_eq rfl).1]
      exact ⟨_, _, .word hid.word rfl hid.ofWord.symm⟩
    | number offset n =>
      rw [(stem_eq rfl).1]
      cases n with
      | int i =>
        have hi := term_int.mp hlegible.term
        exact ⟨_, _, .word (isWord_int hi) rfl (ofWord_int hi).symm⟩
      | _ => cases hlegible.term
    | constant offset value =>
      rw [(stem_eq rfl).1]
      exact ⟨_, _, .word (isWord_constant value) rfl (ofWord_constant value).symm⟩
    | _ => cases hlegible.term

/-! ## tuples without brackets -/

/-- the items of a tuple that is not empty; any other node is the only item -/
def row : Node → List Node
  | .tuple _ (n :: ns) => n :: ns
  | n => [n]

theorem comma_cases (single : Bool) : comma single = [] ∨ comma single = [','] := by
  cases single
  · exact .inl rfl
  · exact .inr rfl

theorem items_map (offset : Int) (elts : List Node) : items (elts.map (oneLine true)) =
    commas (elts.map (oneLine true)) ++ comma (tuple offset elts).isSingle := by
  match elts with
  | [] => rfl
  | [n] => rw [List.map_singleton, commas, List.intercalate_singleton]; rfl
  | n :: m :: ns => exact (List.append_nil _).symm

theorem row_sole {n : Node} (h : n.isLone = true) : n.row = [n.sole] := by
  cases n with
  | tuple offset elts =>
    match elts with
    | [] => rfl
    | [m] => rfl
    | _ :: _ :: _ => simp [isLone] at h
  | _ => rfl

theorem oneLine_row (n : Node) :
    n.oneLine false = commas (n.row.map (oneLine true)) ++ comma n.isSingle := by
  cases hlone : n.isLone with
  | true =>
    rw [row_sole hlone, List.map_singleton, commas, List.intercalate_singleton]
    exact oneLine_sole hlone
  | false =>
    cases n with
    | tuple offset elts =>
      match elts with
      | [] => cases hlone
      | [m] => cases hlone
      | n :: m :: ns =>
        have hrow : (tuple offset (n :: m :: ns)).row = n :: m :: ns := rfl
        rw [oneLine, oneLines_eq_map, hrow]
        exact (List.append_nil _).symm
    | _ => cases hlone

theorem Legible.row {n : Node} (h : Legible n) : ∀ m ∈ n.row, Legible m := by
  have hself : ∀ m ∈ [n], Legible m := List.forall_mem_singleton.mpr h
  cases n with
  | tuple offset elts =>
    cases elts with
    | nil => exact hself
    | cons n ns => exact h.tuple
  | _ => exact hself

theorem row_cases {n m : Node} (h : m ∈ n.row) : m = n ∨ m ∈ n.children := by
  cases n with
  | tuple offset elts =>
    cases elts with
    | nil => exact .inl (List.mem_singleton.mp h)
    | cons n ns => exact .inr h
  | _ => exact .inl (List.mem_singleton.mp h)

theorem row_ne_nil (n : Node) : n.row ≠ [] := by
  cases n with
  | tuple offset elts => cases elts <;> exact List.cons_ne_nil _ _
  | _ => exact List.cons_ne_nil _ _

theorem erase_full {n : Node} (h : n.isLone = false) : n.erase = .tuple 0 (n.row.map erase) := by
  cases n with
  | tuple offset elts =>
    cases elts with
    | nil => cases h
    | cons n ns => rw [erase, row, eraseAll_eq_map]
  | _ => cases h

theorem isLone_eq (n : Node) : n.isLone = decide (n.row.length ≤ 1) := by
  cases n with
  | tuple offset elts =>
    match elts with
    | [] => rfl
    | [_] => rfl
    | _ :: _ :: _ => rfl
  | _ => rfl

/-- a node is told from its items and the comma after them -/
theorem erase_row {n m : Node} (h : n.row.map erase = m.row.map erase)
    (hsingle : n.isSingle = m.isSingle) : n.erase = m.erase := by
  have hlength := congrArg List.length h
  rw [List.length_map, List.length_map] at hlength
  have hsame : n.isLone = m.isLone := by rw [isLone_eq, isLone_eq, hlength]
  cases hn : n.isLone with
  | true =>
    rw [hn] at hsame
    rw [row_sole hn, row_sole hsame.symm] at h
    rw [erase_sole n, erase_sole m, hsingle, (List.cons.inj h).1]
  | false =>
    rw [hn] at hsame
    rw [erase_full hn, erase_full hsame.symm, h]

end Reflow.Node
