import Reflow.Proofs.Erasure
import Reflow.Proofs.Locality

/-!
# Lowering loses nothing but positions and notes

Lowering can be undone where nothing was left out.  `Node.raise` makes a syntax tree of a printed
one again.  Nodes hold what it needs but for one thing: the defaults of parameters by name come
without the places that have none, and it is the order of offsets that says where these were.

* `Node.Complete`         no construct in a tree is kept by its name alone;
* `Node.raise`            the syntax tree of a printed tree, without positions and notes;
* `Tree.raise_lower`      raising what a tree was lowered to gives the tree, without the two;
* `Module.erase_congr`    two modules that are lowered to the same tree differ in nothing else;
* `Module.erase_twins`    each of the notes is lost.
-/

namespace Reflow

/-! ## trees without gaps -/

namespace Node

def isUnsupported : Node → Bool
  | .unsupported .. => true
  | _ => false

/-- no construct inside a node, at any depth, is kept by its name alone -/
def Complete (n : Node) : Prop := ∀ m ∈ n.nodes, m.isUnsupported = false

instance (n : Node) : Decidable n.Complete :=
  inferInstanceAs (Decidable (∀ m ∈ n.nodes, m.isUnsupported = false))

theorem complete_iff {n : Node} :
    n.Complete ↔ n.isUnsupported = false ∧ ∀ m ∈ n.children, m.Complete := forall_nodes

theorem Complete.child {m n : Node} (h : n.Complete) (hm : m ∈ n.children) : m.Complete :=
  (complete_iff.mp h).2 m hm

end Node

/-! ## syntax trees from printed trees -/

namespace Node
open Source

/-- the name that an operator has in a syntax tree -/
def operatorName : Node → String
  | .operator _ op => op.name
  | _ => ""

def raiseParameter : Node → Parameter
  | .parameter _ name => { pos := {}, name }
  | _ => { pos := {}, name := "" }

def raiseParameter? (n : Node) : Option Parameter :=
  if n.isParameter then some n.raiseParameter else none

/-- to each pair that printing makes, the default that it belongs to, if any -/
def dealt {α : Type} (pairs : List (Nat × Option Nat)) (defaults : List α) : List (Option α) :=
  pairs.map fun p => p.2.bind (defaults[·]?)

mutual
/-- the syntax tree of a printed tree, without positions and notes -/
def raise : Node → Tree
  | .function _ name params body =>
    .function {} name false false false params.raiseParameters (raiseAll body)
  | .classDef _ name bases body =>
    .classDef {} name false false false (raiseAll bases) (raiseAll body)
  | .expression _ value => .expression {} value.raise
  | .call _ callee args keywords =>
    .call {} callee.raise (raiseAll args) (raiseKeywords keywords)
  | .string _ s => .constant {} (.text s)
  | .number _ n => .constant {} (.number n)
  | .constant _ none => .constant {} .nothing
  | .constant _ (some b) => .constant {} (.bool b)
  | .ident _ id => .ident {} id
  | .forLoop _ target iter body orElse =>
    .forLoop {} target.raise iter.raise (raiseAll body) (raiseAll orElse)
  | .tuple _ elts => .tuple {} (raiseAll elts)
  | .list _ elts => .list {} (raiseAll elts)
  | .assign _ targets value => .assign {} (raiseAll targets) value.raise
  | .augAssign _ target op value => .augAssign {} target.raise op.operatorName value.raise
  | .dict _ keys values => .dict {} ((raiseAll keys).map some) (raiseAll values)
  | .access _ value attr => .access {} value.raise attr
  | .compare _ left ops comparators =>
    .compare {} left.raise (ops.map operatorName) (raiseAll comparators)
  | n => .other {} n.kind
def raiseAll : List Node → List Tree
  | [] => []
  | n :: ns => n.raise :: raiseAll ns
def raiseKeywords : List Node → List Keyword
  | [] => []
  | .keyword _ name value :: ns => .mk {} name value.raise :: raiseKeywords ns
  | _ :: ns => raiseKeywords ns
/-- parameters by name get their defaults back by the order of offsets -/
def raiseParameters : Node → Parameters
  | .parameters _ posOnly params defaults vararg kwOnly kwDefaults kwarg =>
    .mk (posOnly.map raiseParameter) (params.map raiseParameter) vararg.raiseParameter?
      (kwOnly.map raiseParameter) (dealt (pairParameters kwOnly kwDefaults) (raiseAll kwDefaults))
      kwarg.raiseParameter? (raiseAll defaults)
  | _ => .mk [] [] none [] [] none []
end

theorem raiseAll_eq_map (ns : List Node) : raiseAll ns = ns.map raise := by
  induction ns with
  | nil => rfl
  | cons n ns ih => rw [raiseAll, ih, List.map_cons]

end Node

/-- what is dealt to the numbers of entries are their own defaults; `before` stands for the defaults
of entries that have been passed -/
theorem dealt_numbered {α β γ : Type} (g : β → γ) (es : List (α × Option β)) (param : Nat)
    (before : List γ) :
    Node.dealt (numbered param before.length es) (before ++ (es.filterMap (·.2)).map g) =
      es.map fun e => e.2.map g := by
  induction es generalizing param before with
  | nil => rfl
  | cons e es ih =>
    obtain ⟨a, b?⟩ := e
    cases b? with
    | none =>
      have hrest := ih (param + 1) before
      exact congrArg (none :: ·) hrest
    | some b =>
      have hown : (before ++ g b :: (es.filterMap (·.2)).map g)[before.length]? = some (g b) := by
        simp
      have hrest := ih (param + 1) (before ++ [g b])
      rw [List.length_append, List.length_singleton, List.append_assoc] at hrest
      exact congrArg₂ (· :: ·) hown hrest

namespace Source
variable {starts : List Int}

/-! ## raising what was lowered -/

theorem operatorName_lowerOperator {name : String}
    (h : (lowerOperator name).isUnsupported = false) :
    (lowerOperator name).operatorName = name := by
  rw [lowerOperator] at h ⊢
  cases hop : Operator.ofName? name with
  | none =>
    rw [hop] at h
    cases h
  | some op =>
    rw [Operator.ofName?] at hop
    have hname := List.find?_some hop
    exact eq_of_beq hname

theorem raise_constant {offset : Int} {value : Constant}
    (h : (value.lower offset).isUnsupported = false) :
    (value.lower offset).raise = .constant {} value := by
  cases value with
  | other typeName => cases h
  | _ => rfl

/-- a function that is not refused has none of what it would be refused for -/
theorem lower_function {pos : Position} {name : String} {decorated generic returns : Bool}
    {params : Parameters} {body : List Tree} {typeComment? : Option String}
    (h : ((Tree.function pos name decorated generic returns params body typeComment?).lower
      starts).isUnsupported = false) :
    decorated = false ∧ generic = false ∧ returns = false ∧ params.annotated = false := by
  rw [Tree.lower] at h
  cases decorated with
  | true => cases h
  | false =>
  cases generic with
  | true => cases h
  | false =>
  cases returns with
  | true => cases h
  | false =>
  cases hann : params.annotated with
  | true =>
    rw [hann] at h
    cases h
  | false => exact ⟨rfl, rfl, rfl, rfl⟩

theorem lower_classDef {pos : Position} {name : String} {decorated keyworded generic : Bool}
    {bases body : List Tree}
    (h : ((Tree.classDef pos name decorated keyworded generic bases body).lower
      starts).isUnsupported = false) :
    decorated = false ∧ keyworded = false ∧ generic = false := by
  rw [Tree.lower] at h
  cases decorated with
  | true => cases h
  | false =>
  cases keyworded with
  | true => cases h
  | false =>
  cases generic with
  | true => cases h
  | false => exact ⟨rfl, rfl, rfl⟩

theorem lower_dict {pos : Position} {keys : List (Option Tree)} {values : List Tree}
    (h : ((Tree.dict pos keys values).lower starts).isUnsupported = false) :
    keys.any (·.isNone) = false := by
  rw [Tree.lower] at h
  cases hkeys : keys.any (·.isNone) with
  | true =>
    rw [hkeys] at h
    cases h
  | false => rfl

theorem Parameters.complete_lower {ps : Parameters} (h : (ps.lower starts).Complete) {s : Tree}
    (hs : s ∈ ps.trees) : (s.lower starts).Complete := by
  obtain ⟨posOnly, params, vararg, kwOnly, kwDefaults, kwarg, defaults⟩ := ps
  apply h.child
  rw [lower, lowerAll_eq_map, lowerPresent_eq_map, Node.children]
  rcases List.mem_append.mp hs with hs | hs
  · have hmem := List.mem_map_of_mem (f := Tree.lower starts) hs
    simp only [List.mem_cons, List.mem_append]
    tauto
  · have hmem := List.mem_map_of_mem (f := Tree.lower starts) hs
    simp only [List.mem_cons, List.mem_append]
    tauto

theorem Tree.complete_lower {t : Tree} (h : (t.lower starts).Complete) {s : Tree}
    (hs : s ∈ t.children) : (s.lower starts).Complete := by
  have hall : ∀ ts : List Tree, s ∈ ts → s.lower starts ∈ lowerAll starts ts := fun ts hs => by
    rw [lowerAll_eq_map]
    exact List.mem_map_of_mem hs
  have hpresent : ∀ ts : List (Option Tree), s ∈ ts.filterMap id →
      s.lower starts ∈ lowerPresent starts ts := fun ts hs => by
    rw [lowerPresent_eq_map]
    exact List.mem_map_of_mem hs
  have hkeywords : ∀ ks : List Keyword, (∀ m ∈ lowerKeywords starts ks, m.Complete) →
      s ∈ ks.map Keyword.value → (s.lower starts).Complete := fun ks hks hs => by
    obtain ⟨⟨pos, name, value⟩, hk, rfl⟩ := List.mem_map.mp hs
    rw [lowerKeywords_eq_map] at hks
    exact (hks _ (List.mem_map_of_mem hk)).child (List.mem_singleton_self _)
  obtain ⟨hself, hchildren⟩ := Node.complete_iff.mp h
  cases t with
  | function pos name decorated generic returns params body =>
    obtain ⟨rfl, rfl, rfl, hann⟩ := lower_function hself
    simp only [lower, hann, Bool.false_eq_true, if_false, Node.children,
      List.forall_mem_cons] at hchildren
    obtain ⟨hparams, hbody⟩ := hchildren
    rcases List.mem_append.mp hs with hs | hs
    · exact Parameters.complete_lower hparams hs
    · exact hbody _ (hall body hs)
  | classDef pos name decorated keyworded generic bases body =>
    obtain ⟨rfl, rfl, rfl⟩ := lower_classDef hself
    simp only [lower, Bool.false_eq_true, if_false, Node.children] at hchildren
    grind [children]
  | dict pos keys values =>
    have hkeys := lower_dict hself
    simp only [lower, hkeys, Bool.false_eq_true, if_false, Node.children] at hchildren
    grind [children]
  | call pos callee args keywords =>
    simp only [lower, Node.children] at hchildren
    have hks := hkeywords keywords
    grind [children]
  | _ => 
    simp only [lower, Node.children] at hchildren
    grind [children]

/-- that a tree comes back from what it was lowered to, without positions and notes -/
def Tree.Returns (starts : List Int) (t : Tree) : Prop := (t.lower starts).raise = t.erase

theorem Tree.Returns.eq {t : Tree} (h : t.Returns starts) : (t.lower starts).raise = t.erase := h

theorem raiseAll_lowerAll {ts : List Tree} (h : ∀ t ∈ ts, t.Returns starts) :
    Node.raiseAll (lowerAll starts ts) = eraseAll ts := by
  rw [lowerAll_eq_map, Node.raiseAll_eq_map, eraseAll_eq_map, List.map_map]
  exact List.map_congr_left h

theorem raiseKeywords_lowerKeywords {ks : List Keyword}
    (h : ∀ t ∈ ks.map Keyword.value, t.Returns starts) :
    Node.raiseKeywords (lowerKeywords starts ks) = eraseKeywords ks := by
  induction ks with
  | nil => rfl
  | cons k ks ih =>
    obtain ⟨pos, name, value⟩ := k
    obtain ⟨hvalue, hks⟩ := List.forall_mem_cons.mp h
    have hvalue : value.Returns starts := hvalue
    rw [lowerKeywords, Node.raiseKeywords, eraseKeywords, ih hks, hvalue.eq]

/-- keys come back if there is one for every entry -/
theorem raiseAll_lowerPresent {ts : List (Option Tree)} (hkeys : ts.any (·.isNone) = false)
    (h : ∀ t ∈ ts.filterMap id, t.Returns starts) :
    (Node.raiseAll (lowerPresent starts ts)).map some = eraseOptions ts := by
  induction ts with
  | nil => rfl
  | cons t? ts ih =>
    cases t? with
    | none => cases hkeys
    | some t =>
      obtain ⟨ht, hts⟩ := List.forall_mem_cons.mp h
      have hrest := ih hkeys hts
      rw [lowerPresent, Node.raiseAll, List.map_cons, hrest, ht.eq, eraseOptions]

theorem raise_parameter {p : Parameter} (h : p.annotated = false) :
    (p.lower starts).raiseParameter = p.erase := by
  obtain ⟨pos, name, annotated⟩ := p
  cases h
  rfl

namespace Parameters

theorem raise_parameters {ps : List Parameter} (h : ps.any (·.annotated) = false) :
    (ps.map (Parameter.lower starts)).map Node.raiseParameter = ps.map Parameter.erase := by
  rw [List.map_map]
  refine List.map_congr_left fun p hp => raise_parameter ?_
  exact Bool.eq_false_iff.mpr (List.any_eq_false.mp h p hp)

theorem raise_parameter? {p? : Option Parameter} (h : p?.toList.any (·.annotated) = false) :
    (p?.elim .nothing (Parameter.lower starts)).raiseParameter? = p?.map Parameter.erase := by
  cases p? with
  | none => rfl
  | some p =>
    have hp : p.annotated = false := by simpa using h
    exact congrArg some (raise_parameter hp)

/-- the defaults of parameters by name come back to their own places -/
theorem dealt_lower {ps : Parameters} (hs : ps.Shaped) (ho : ps.InOrder starts)
    (h : ∀ t ∈ ps.kwDefaults.filterMap id, t.Returns starts) :
    Node.dealt (pairParameters (ps.kwOnly.map (Parameter.lower starts))
        (lowerPresent starts ps.kwDefaults)) (Node.raiseAll (lowerPresent starts ps.kwDefaults)) =
      eraseOptions ps.kwDefaults := by
  have hpairs := pairParameters_written (Parameter.lower starts) (Tree.lower starts) (fun _ => rfl)
    (fun t => t.isParameter_lower starts) (written_pairwise ho.byName)
  have hparams : ps.byNameEntries.map (fun e => e.1.lower starts) =
      ps.kwOnly.map (Parameter.lower starts) := by
    rw [← hs.byName_fst, List.map_map]
    rfl
  rw [hparams, hs.byName_snd] at hpairs
  have hdefaults : Node.raiseAll (lowerPresent starts ps.kwDefaults) =
      (ps.byNameEntries.filterMap (·.2)).map Tree.erase := by
    rw [hs.byName_snd, lowerPresent_eq_map, Node.raiseAll_eq_map, List.map_map]
    exact List.map_congr_left h
  have hsnd : ps.byNameEntries.map Prod.snd = ps.kwDefaults :=
    List.map_snd_zip (Nat.le_of_eq hs.kwDefaults_eq)
  have hdealt := dealt_numbered Tree.erase ps.byNameEntries 0 []
  rw [hdefaults, lowerPresent_eq_map, hpairs]
  calc Node.dealt (numbered 0 0 ps.byNameEntries) ((ps.byNameEntries.filterMap (·.2)).map Tree.erase)
      = ps.byNameEntries.map fun e => e.2.map Tree.erase := hdealt
    _ = (ps.byNameEntries.map Prod.snd).map (Option.map Tree.erase) := by
        rw [List.map_map]
        rfl
    _ = eraseOptions ps.kwDefaults := by rw [hsnd, eraseOptions_eq_map]

theorem raise_lower {ps : Parameters} (hs : ps.Shaped) (ho : ps.InOrder starts)
    (hann : ps.annotated = false) (h : ∀ t ∈ ps.trees, t.Returns starts) :
    (ps.lower starts).raiseParameters = ps.erase := by
  obtain ⟨posOnly, params, vararg, kwOnly, kwDefaults, kwarg, defaults⟩ := ps
  obtain ⟨hdefaults, hkwDefaults⟩ := List.forall_mem_append.mp h
  have hdealt := dealt_lower hs ho hkwDefaults
  simp only [annotated, List.any_append, Bool.or_eq_false_iff] at hann
  obtain ⟨⟨⟨⟨hposOnly, hparams⟩, hkwOnly⟩, hvararg⟩, hkwarg⟩ := hann
  rw [lower, Node.raiseParameters, erase, raise_parameters hposOnly, raise_parameters hparams,
    raise_parameters hkwOnly, raise_parameter? hvararg, raise_parameter? hkwarg,
    raiseAll_lowerAll hdefaults]
  exact congrArg (Parameters.mk _ _ _ _ · _ _) hdealt

end Parameters

/-- a tree without gaps, with parameters and defaults in the order of the source, comes back from
what it was lowered to -/
theorem Tree.raise_lower (t : Tree) (hr : ∀ s ∈ t.subtrees, s.Regular starts)
    (hc : (t.lower starts).Complete) : (t.lower starts).raise = t.erase := by
  induction t using Tree.induct_children with
  | step t ih =>
    obtain ⟨hself, hrest⟩ := Tree.forall_subtrees.mp hr
    have hchildren : ∀ s ∈ t.children, s.Returns starts := fun s hs =>
      ih s hs (hrest s hs) (Tree.complete_lower hc hs)
    have hnode := (Node.complete_iff.mp hc).1
    cases t with
    | function pos name decorated generic returns params body =>
      obtain ⟨rfl, rfl, rfl, hann⟩ := lower_function hnode
      obtain ⟨htrees, hbody⟩ := List.forall_mem_append.mp hchildren
      obtain ⟨hshaped, hinOrder⟩ := hself params rfl
      have hparams := Parameters.raise_lower hshaped hinOrder hann htrees
      simp only [lower, hann, Bool.false_eq_true, if_false]
      rw [Node.raise, erase, hparams, raiseAll_lowerAll hbody, eraseNote_false]
    | classDef pos name decorated keyworded generic bases body =>
      obtain ⟨rfl, rfl, rfl⟩ := lower_classDef hnode
      obtain ⟨hbases, hbody⟩ := List.forall_mem_append.mp hchildren
      simp only [lower, Bool.false_eq_true, if_false]
      rw [Node.raise, erase, raiseAll_lowerAll hbases, raiseAll_lowerAll hbody]
    | expression pos value =>
      have hvalue : value.Returns starts := hchildren value (List.mem_singleton_self _)
      rw [lower, Node.raise, erase, hvalue.eq]
    | call pos callee args keywords =>
      obtain ⟨hcallee, hrest⟩ := List.forall_mem_cons.mp hchildren
      obtain ⟨hargs, hkeywords⟩ := List.forall_mem_append.mp hrest
      rw [lower, Node.raise, erase, hcallee.eq, raiseAll_lowerAll hargs,
        raiseKeywords_lowerKeywords hkeywords]
    | constant pos value => exact raise_constant hnode
    | ident pos id => rfl
    | forLoop pos target iter body orElse =>
      obtain ⟨htarget, hrest⟩ := List.forall_mem_cons.mp hchildren
      obtain ⟨hiter, hrest⟩ := List.forall_mem_cons.mp hrest
      obtain ⟨hbody, horElse⟩ := List.forall_mem_append.mp hrest
      rw [lower, Node.raise, erase, htarget.eq, hiter.eq, raiseAll_lowerAll hbody,
        raiseAll_lowerAll horElse, eraseNote_false]
    | tuple pos elts =>
      have helts : ∀ s ∈ elts, s.Returns starts := hchildren
      rw [lower, Node.raise, erase, raiseAll_lowerAll helts, Usage.erase_false]
    | list pos elts =>
      have helts : ∀ s ∈ elts, s.Returns starts := hchildren
      rw [lower, Node.raise, erase, raiseAll_lowerAll helts, Usage.erase_false]
    | assign pos targets value =>
      obtain ⟨hvalue, htargets⟩ := List.forall_mem_cons.mp hchildren
      rw [lower, Node.raise, erase, hvalue.eq, raiseAll_lowerAll htargets, eraseNote_false]
    | augAssign pos target op value =>
      obtain ⟨htarget, hrest⟩ := List.forall_mem_cons.mp hchildren
      have hvalue : value.Returns starts := hrest value (List.mem_singleton_self _)
      have hop : (lowerOperator op).operatorName = op := by
        apply operatorName_lowerOperator
        have hcomplete := hc.child (m := lowerOperator op) (by simp [lower, Node.children])
        exact (Node.complete_iff.mp hcomplete).1
      rw [lower, Node.raise, erase, htarget.eq, hvalue.eq, hop]
    | dict pos keys values =>
      have hkeys := lower_dict hnode
      obtain ⟨hkeyTrees, hvalues⟩ := List.forall_mem_append.mp hchildren
      simp only [lower, hkeys, Bool.false_eq_true, if_false]
      rw [Node.raise, erase, raiseAll_lowerPresent hkeys hkeyTrees, raiseAll_lowerAll hvalues]
    | access pos value attr =>
      have hvalue : value.Returns starts := hchildren value (List.mem_singleton_self _)
      rw [lower, Node.raise, erase, hvalue.eq, Usage.erase_false]
    | compare pos left ops comparators =>
      obtain ⟨hleft, hcomparators⟩ := List.forall_mem_cons.mp hchildren
      have hops : (ops.map lowerOperator).map Node.operatorName = ops := by
        rw [List.map_map]
        refine (List.map_congr_left fun op hop => ?_).trans (List.map_id ops)
        apply operatorName_lowerOperator
        have hmem : lowerOperator op ∈ ops.map lowerOperator := List.mem_map_of_mem hop
        have hcomplete := hc.child (m := lowerOperator op) (by simp [lower, Node.children, hmem])
        exact (Node.complete_iff.mp hcomplete).1
      rw [lower, Node.raise, erase, hleft.eq, hops, raiseAll_lowerAll hcomparators]
    | other pos kind => cases hnode

/-! ## modules -/

theorem Module.raise_lower {m : Module} {text : String} (hr : m.Regular text)
    (hc : (m.lower text).Complete) : Node.raiseAll (m.lower text).children = m.erase.body := by
  have hbody : ∀ t ∈ m.body, t.Returns (startsOf text) := by
    intro t ht
    apply Tree.raise_lower t (Module.forall_subtrees.mp hr t ht)
    apply hc.child
    rw [Module.lower_eq]
    exact List.mem_map_of_mem ht
  exact raiseAll_lowerAll hbody

/-- **Lowering loses nothing but notes.**  Two modules that are lowered to the same tree, offsets
included, differ in positions and notes only, if no construct of theirs is kept by its name alone
and both have their parameters and defaults in the order of the text. -/
theorem Module.erase_congr {m₁ m₂ : Module} {text : String} (h : m₁.lower text = m₂.lower text)
    (h₁ : m₁.Regular text) (h₂ : m₂.Regular text) (hc₁ : (m₁.lower text).Complete)
    (hc₂ : (m₂.lower text).Complete) : m₁.erase = m₂.erase := by
  have hbody : m₁.erase.body = m₂.erase.body := by
    calc m₁.erase.body = Node.raiseAll (m₁.lower text).children := (raise_lower h₁ hc₁).symm
      _ = Node.raiseAll (m₂.lower text).children := by rw [h]
      _ = m₂.erase.body := raise_lower h₂ hc₂
  exact congrArg (Module.mk · []) hbody

/-- `sampleModule` with every place told by its offset, without a line, and with the type of the
function in a comment -/
def offsetModule : Module where
  body := [.function ⟨none, 0⟩ "f" false false false
    (.mk [{ pos := ⟨none, 6⟩, name := "a" }] [{ pos := ⟨none, 12⟩, name := "b" }] none
      [{ pos := ⟨none, 21⟩, name := "c" }, { pos := ⟨none, 24⟩, name := "d" }]
      [none, some (.ident ⟨none, 26⟩ "y")]
      (some { pos := ⟨none, 31⟩, name := "k" }) [.ident ⟨none, 14⟩ "x"])
    [.expression ⟨none, 35⟩ (.ident ⟨none, 35⟩ "x")] (some "(...) -> int")]

theorem Module.erase_congr_sample :
    sampleModule.lower sampleText = offsetModule.lower sampleText ∧
    sampleModule.Regular sampleText ∧ offsetModule.Regular sampleText ∧
    (sampleModule.lower sampleText).Complete ∧ (offsetModule.lower sampleText).Complete ∧
    sampleModule.erase = offsetModule.erase := by
  have h : sampleModule.lower sampleText = offsetModule.lower sampleText := rfl
  have ho : offsetModule.Regular sampleText := by decide
  have hc : (sampleModule.lower sampleText).Complete := by decide
  have hc' : (offsetModule.lower sampleText).Complete := by decide
  exact ⟨h, sampleModule_regular, ho, hc, hc', Module.erase_congr h sampleModule_regular ho hc hc'⟩

/-- pairs of modules that are the same but for one note: the letter before a text; what a name, a
tuple, a list and a member are used for; the type that a comment gives to what is assigned, to the
elements of a loop, to a function and to a parameter; and a comment to type checkers -/
def noteTwins : List (Module × Module) :=
  let x : Tree := .ident ⟨some 1, 0⟩ "x"
  let block : List Tree := [.expression ⟨some 1, 0⟩ x]
  let assigned (value : Tree) : Module := { body := [.assign ⟨some 1, 0⟩ [x] value] }
  let stated (t : Tree) : Module := { body := [t] }
  let params (comment? : Option String) : Parameters :=
    .mk [] [{ pos := ⟨some 1, 6⟩, name := "a", typeComment? := comment? }] none [] [] none []
  [(assigned (.constant ⟨some 1, 4⟩ (.text "a") (some "u")),
      assigned (.constant ⟨some 1, 4⟩ (.text "a"))),
   (assigned (.ident ⟨some 1, 4⟩ "y" .store), assigned (.ident ⟨some 1, 4⟩ "y")),
   (assigned (.tuple ⟨some 1, 4⟩ [] .store), assigned (.tuple ⟨some 1, 4⟩ [])),
   (assigned (.list ⟨some 1, 4⟩ [] .store), assigned (.list ⟨some 1, 4⟩ [])),
   (assigned (.access ⟨some 1, 4⟩ x "y" .store), assigned (.access ⟨some 1, 4⟩ x "y")),
   (stated (.assign ⟨some 1, 0⟩ [x] x (some "int")), stated (.assign ⟨some 1, 0⟩ [x] x)),
   (stated (.forLoop ⟨some 1, 0⟩ x x block [] (some "int")),
      stated (.forLoop ⟨some 1, 0⟩ x x block [])),
   (stated (.function ⟨some 1, 0⟩ "f" false false false (params none) block (some "(int) -> int")),
      stated (.function ⟨some 1, 0⟩ "f" false false false (params none) block)),
   (stated (.function ⟨some 1, 0⟩ "f" false false false (params (some "int")) block),
      stated (.function ⟨some 1, 0⟩ "f" false false false (params none) block)),
   ({ body := block, typeIgnores := [⟨1, ""⟩] }, { body := block })]

/-- no note comes through: the modules of a pair are lowered to one tree, with nothing left out and
parameters in order, although they are not the same up to positions -/
theorem Module.erase_twins :
    let text := "x = u\"a\"\n"
    ∀ twins ∈ noteTwins, twins.1.lower text = twins.2.lower text ∧
      (twins.1.Regular text ∧ twins.2.Regular text) ∧
      ((twins.1.lower text).Complete ∧ (twins.2.lower text).Complete) ∧
      twins.1.erase true ≠ twins.2.erase true := by
  intro text
  have hlower : noteTwins.map (·.1.lower text) = noteTwins.map (·.2.lower text) := rfl
  have hregular : ∀ twins ∈ noteTwins, twins.1.Regular text ∧ twins.2.Regular text := by decide
  have hcomplete : ∀ twins ∈ noteTwins,
      (twins.1.lower text).Complete ∧ (twins.2.lower text).Complete := by decide
  have hnotes : ∀ twins ∈ noteTwins, twins.1.erase true ≠ twins.2.erase true := by
    simp [noteTwins, erase, eraseAll, Tree.erase, Parameters.erase, Parameter.erase, Usage.erase,
      eraseNote, eraseIgnores]
  intro twins htwins
  exact ⟨List.map_inj_left.mp hlower twins htwins, hregular twins htwins, hcomplete twins htwins,
    hnotes twins htwins⟩

end Source

end Reflow
