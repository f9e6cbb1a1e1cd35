import Reflow.Print.Path
import Reflow.Proofs.SourceOrder

/-!
# Printing source trees directly

Printing goes by way of lowering: a source tree becomes nodes with offsets, and the printed
parameters are put together again from the offsets.  `Tree.printed` says what comes out without
either: every parameter is printed with its own default, and no position is looked at.

* `Parameters.printed`       printed parameters, entry by entry;
* `Tree.printed`             a printed tree, told whether it stands directly in a tuple or a list;
* `Parameters.printBelow_lower`, `Tree.printBelow_lower`   lowering and printing gives just that, if
                             parameters and defaults stand in the order of the source;
* `Module.print_lower`       and so it is for a whole module.
-/

namespace Reflow.Source

def refused (kind detail : String) : Printed := .error (.unsupported kind (some detail))

def Constant.printed : Constant → Printed
  | .nothing => Rule.constant none
  | .bool b => Rule.constant (some b)
  | .text s => Rule.string s
  | .number n => Rule.number n
  | .other typeName => refused "Constant" typeName

def printedOperator (name : String) : Printed :=
  match Operator.ofName? name with
  | some op => Rule.operator op
  | none => .error (.unsupported name none)

def Parameter.printed (p : Parameter) : Printed := .ok (.text p.name)

mutual
/-- what is printed for a tree that stands directly in a tuple or list, or does not -/
def Tree.printed (inSequence : Bool) : Tree → Printed
  | .function _ name decorated generic returns params body _ =>
    if decorated then refused "FunctionDef" "decorators"
    else if generic then refused "FunctionDef" "type parameters"
    else if returns then refused "FunctionDef" "return annotation"
    else if params.annotated then refused "FunctionDef" "parameter annotations"
    else Rule.function name params.printed (printedAll false body)
  | .classDef _ name decorated keyworded generic bases body =>
    if decorated then refused "ClassDef" "decorators"
    else if keyworded then refused "ClassDef" "class keywords"
    else if generic then refused "ClassDef" "type parameters"
    else Rule.classDef name (printedAll false bases) (printedAll false body)
  | .expression _ value => value.printed false
  | .call _ callee args keywords =>
    Rule.call (callee.lower []) (printedAll false args) (printedKeywords keywords)
  | .constant _ value _ => value.printed
  | .ident _ id _ => .ok (.text id)
  | .forLoop _ target iter body orElse _ =>
    Rule.forLoop (target.printed false) (iter.printed false) (printedAll false body)
      (printedAll false orElse)
  | .tuple _ elts _ => Rule.tuple inSequence (printedAll true elts)
  | .list _ elts _ => Rule.list (printedAll true elts)
  | .assign _ targets value _ => Rule.assign (printedAll false targets) (value.printed false)
  | .augAssign _ target op value =>
    Rule.augAssign (target.printed false) (printedOperator op) (value.printed false)
  | .dict _ keys values =>
    if keys.any (·.isNone) then refused "Dict" "dictionary unpacking"
    else Rule.dict (printedPresent keys) (printedAll false values)
  | .access _ value attr _ => Rule.access (value.printed false) attr
  | .compare _ left ops comparators =>
    Rule.compare (left.printed false) (ops.map printedOperator) (printedAll false comparators)
  | .other _ kind => .error (.unsupported kind none)
def printedAll (inSequence : Bool) : List Tree → List Printed
  | [] => []
  | t :: ts => t.printed inSequence :: printedAll inSequence ts
def printedPresent : List (Option Tree) → List Printed
  | [] => []
  | none :: ts => printedPresent ts
  | some t :: ts => t.printed false :: printedPresent ts
def printedOptions : List (Option Tree) → List (Option Printed)
  | [] => []
  | none :: ts => none :: printedOptions ts
  | some t :: ts => some (t.printed false) :: printedOptions ts
def printedKeywords : List Keyword → List Printed
  | [] => []
  | .mk _ name value :: ks => Rule.keyword name (value.printed false) :: printedKeywords ks
def Parameters.printed : Parameters → Printed
  | .mk posOnly params vararg kwOnly kwDefaults kwarg defaults =>
    let positional := (posOnly ++ params).map Parameter.printed
    let byName := kwOnly.map Parameter.printed
    Rule.parameters posOnly.length
      (Printed.all (positional.zipWith Rule.entry
        (alignRight positional.length (printedAll false defaults))))
      (vararg.map Parameter.printed)
      (if kwOnly.isEmpty then none
        else some (Printed.all (byName.zipWith Rule.entry (printedOptions kwDefaults))))
      (kwarg.map Parameter.printed)
end

/-! ## lists of trees -/

theorem printedAll_eq_map (inSequence : Bool) (ts : List Tree) :
    printedAll inSequence ts = ts.map (Tree.printed inSequence) := by
  induction ts with
  | nil => rfl
  | cons t ts ih => rw [printedAll, ih, List.map_cons]

theorem printedPresent_eq_map (ts : List (Option Tree)) :
    printedPresent ts = (ts.filterMap id).map (Tree.printed false) := by
  induction ts with
  | nil => rfl
  | cons t? ts ih =>
    cases t? with
    | none => exact ih
    | some t =>
      rw [printedPresent, ih]
      rfl

theorem printedOptions_eq_map (ts : List (Option Tree)) :
    printedOptions ts = ts.map (Option.map (Tree.printed false)) := by
  induction ts with
  | nil => rfl
  | cons t? ts ih => cases t? <;> simp only [printedOptions, ih, List.map_cons, Option.map]

def Keyword.printed : Keyword → Printed
  | .mk _ name value => Rule.keyword name (value.printed false)

theorem printedKeywords_eq_map (ks : List Keyword) :
    printedKeywords ks = ks.map Keyword.printed := by
  induction ks with
  | nil => rfl
  | cons k ks ih =>
    obtain ⟨pos, name, value⟩ := k
    rw [printedKeywords, ih, List.map_cons, Keyword.printed]

/-! ## parameters -/

section
variable (g : Tree → Printed)

/-- what is printed for a parameter with its default, which `g` prints -/
def printedEntry (e : Parameter × Option Tree) : Printed := Rule.entry e.1.printed (e.2.map g)

def Parameters.printedBy (ps : Parameters) : Printed :=
  Rule.parameters ps.posOnly.length
    (Printed.all (ps.positionalEntries.map (printedEntry g)))
    (ps.vararg.map Parameter.printed)
    (if ps.kwOnly.isEmpty then none
      else some (Printed.all (ps.byNameEntries.map (printedEntry g))))
    (ps.kwarg.map Parameter.printed)

theorem zipWith_entry (ps : List Parameter) (ds : List (Option Tree)) :
    (ps.map Parameter.printed).zipWith Rule.entry (ds.map (Option.map g)) =
      (ps.zip ds).map (printedEntry g) := by
  rw [List.zipWith_map, List.map_zip_eq_zipWith]
  rfl

end

theorem alignRight_map {α β : Type} (n : Nat) (as : List α) (f : α → β) :
    alignRight n (as.map f) = (alignRight n as).map (Option.map f) := by
  simp [alignRight]

theorem Parameters.printed_eq (ps : Parameters) : ps.printed = ps.printedBy (Tree.printed false) := by
  obtain ⟨posOnly, params, vararg, kwOnly, kwDefaults, kwarg, defaults⟩ := ps
  simp only [printed, printedAll_eq_map, printedOptions_eq_map, alignRight_map, zipWith_entry,
    List.length_map]
  rfl

/-! ## lowering and printing -/

section
variable (starts : List Int)

theorem present_lower (owner : Node) (field : String) (t : Tree) (x : Printed) :
    owner.present field (t.lower starts) x = x := by
  rw [Node.present, t.isNothing_lower starts]
  rfl

variable {starts} {above : List Node} {owner : Node} {field : String}

theorem printAllBelow_lower {ts : List Tree} {f : Tree → Printed}
    (h : ∀ t ∈ ts, (t.lower starts).printBelow (owner :: above) = f t) :
    Node.printAllBelow above owner field (ts.map (Tree.lower starts)) = ts.map f := by
  rw [Node.printAllBelow_eq_map, List.map_map]
  refine List.map_congr_left fun t ht => ?_
  rw [Function.comp_apply, present_lower, h t ht]

theorem isSequence_parameters (ps : Parameters) : (ps.lower starts).isSequence = false := by
  obtain ⟨posOnly, params, vararg, kwOnly, kwDefaults, kwarg, defaults⟩ := ps
  rfl

theorem present_parameters (ps : Parameters) (x : Printed) :
    owner.present field (ps.lower starts) x = x := by
  obtain ⟨posOnly, params, vararg, kwOnly, kwDefaults, kwarg, defaults⟩ := ps
  rfl

theorem printAllBelow_parameters (ps : List Parameter) :
    Node.printAllBelow above owner field (ps.map (Parameter.lower starts)) =
      ps.map Parameter.printed := by
  rw [Node.printAllBelow_eq_map, List.map_map]
  rfl

/-- parameters in the order of the source are printed with their own defaults -/
theorem Parameters.printBelow_lower {ps : Parameters} (hs : ps.Shaped) (ho : ps.InOrder starts)
    {g : Tree → Printed}
    (h : ∀ t ∈ ps.trees, (t.lower starts).printBelow (ps.lower starts :: above) = g t) :
    (ps.lower starts).printBelow above = ps.printedBy g := by
  obtain ⟨posOnly, params, vararg, kwOnly, kwDefaults, kwarg, defaults⟩ := ps
  have hpositional : Rule.merged ((posOnly ++ params).map (Parameter.lower starts))
      (defaults.map (Tree.lower starts)) ((posOnly ++ params).map Parameter.printed)
      (defaults.map g) = _ :=
    merged_lower hs.positional_fst hs.positional_snd ho.positional Parameter.printed g
  have hbyName : Rule.merged (kwOnly.map (Parameter.lower starts))
      ((kwDefaults.filterMap id).map (Tree.lower starts)) (kwOnly.map Parameter.printed)
      ((kwDefaults.filterMap id).map g) = _ :=
    merged_lower hs.byName_fst hs.byName_snd ho.byName Parameter.printed g
  have hdefaults : ∀ t ∈ defaults, _ := fun t ht => h t (List.mem_append_left _ ht)
  have hkwDefaults : ∀ t ∈ kwDefaults.filterMap id, _ := fun t ht =>
    h t (List.mem_append_right _ ht)
  simp only [Parameters.lower, lowerAll_eq_map, lowerPresent_eq_map] at hdefaults hkwDefaults ⊢
  rw [Node.printBelow, printAllBelow_parameters, printAllBelow_parameters, printAllBelow_parameters,
    printAllBelow_lower hdefaults, printAllBelow_lower hkwDefaults, ← List.map_append,
    ← List.map_append, hpositional, hbyName, List.length_map]
  cases vararg <;> cases kwarg <;> cases kwOnly <;> rfl

/-- the rule for a call looks at the name that is called, or at the kind of what is called -/
theorem call_lower (callee : Tree) (args keywords : List Printed) :
    Rule.call (callee.lower starts) args keywords = Rule.call (callee.lower []) args keywords := by
  cases callee <;> simp only [Tree.lower] <;> (repeat' split) <;> try rfl
  case constant pos value kind? => cases value <;> rfl

theorem printBelow_lowerOperator (name : String) :
    (lowerOperator name).printBelow above = printedOperator name := by
  unfold lowerOperator printedOperator
  cases Operator.ofName? name <;> rw [Node.printBelow]

theorem present_lowerOperator (name : String) (x : Printed) :
    owner.present field (lowerOperator name) x = x := by
  unfold lowerOperator
  cases Operator.ofName? name <;> rfl

theorem printAllBelow_operators (names : List String) :
    Node.printAllBelow above owner field (names.map lowerOperator) = names.map printedOperator := by
  rw [Node.printAllBelow_eq_map, List.map_map]
  refine List.map_congr_left fun name _ => ?_
  rw [Function.comp_apply, present_lowerOperator, printBelow_lowerOperator]

variable (starts) in
/-- below any node, lowering a tree and printing it is printing the tree directly -/
def Tree.Prints (t : Tree) : Prop :=
  ∀ owner above, (t.lower starts).printBelow (owner :: above) = t.printed owner.isSequence

theorem printAllBelow_prints {ts : List Tree} (h : ∀ t ∈ ts, t.Prints starts) :
    Node.printAllBelow above owner field (lowerAll starts ts) =
      printedAll owner.isSequence ts := by
  rw [lowerAll_eq_map, printedAll_eq_map]
  exact printAllBelow_lower fun t ht => h t ht owner above

theorem printAllBelow_present {ts : List (Option Tree)}
    (h : ∀ t ∈ ts.filterMap id, t.Prints starts) (howner : owner.isSequence = false) :
    Node.printAllBelow above owner field (lowerPresent starts ts) = printedPresent ts := by
  rw [lowerPresent_eq_map, ← lowerAll_eq_map, printAllBelow_prints h, howner, printedAll_eq_map,
    printedPresent_eq_map]

theorem printAllBelow_keywords {ks : List Keyword}
    (h : ∀ t ∈ ks.map Keyword.value, t.Prints starts) :
    Node.printAllBelow above owner field (lowerKeywords starts ks) = printedKeywords ks := by
  rw [lowerKeywords_eq_map, printedKeywords_eq_map, Node.printAllBelow_eq_map, List.map_map]
  refine List.map_congr_left fun k hk => ?_
  have hv := h k.value (List.mem_map_of_mem hk) (k.lower starts) (owner :: above)
  obtain ⟨pos, name, value⟩ := k
  show Rule.keyword name _ = Rule.keyword name _
  rw [present_lower]
  exact congrArg (Rule.keyword name) hv

theorem printBelow_prints {ps : Parameters} (hs : ps.Shaped) (ho : ps.InOrder starts)
    (h : ∀ t ∈ ps.trees, t.Prints starts) :
    (ps.lower starts).printBelow above = ps.printed := by
  rw [Parameters.printed_eq]
  refine Parameters.printBelow_lower hs ho fun t ht => ?_
  rw [h t ht, isSequence_parameters]

theorem Tree.printBelow_lower (t : Tree) :
    ∀ above, (∀ s ∈ t.subtrees, s.Regular starts) →
      (t.lower starts).printBelow above = t.printed (above.head?.any Node.isSequence) := by
  induction t using Tree.induct_children with
  | step t ih =>
    intro above h
    obtain ⟨ht, hc⟩ := Tree.forall_subtrees.mp h
    have hchild : ∀ s ∈ t.children, s.Prints starts := fun s hs owner above =>
      ih s hs (owner :: above) (hc s hs)
    cases t with
    | function pos name decorated generic returns params body =>
      obtain ⟨hs, ho⟩ := ht params rfl
      obtain ⟨htrees, hbody⟩ := List.forall_mem_append.mp hchild
      rw [lower, printed]
      (repeat' split) <;> rw [Node.printBelow]
      · rfl
      · rfl
      · rfl
      · rfl
      · rw [present_parameters, printBelow_prints hs ho htrees, printAllBelow_prints hbody]
        rfl
    | classDef pos name decorated keyworded generic bases body =>
      obtain ⟨hbases, hbody⟩ := List.forall_mem_append.mp hchild
      rw [lower, printed]
      (repeat' split) <;> rw [Node.printBelow]
      · rfl
      · rfl
      · rfl
      · rw [printAllBelow_prints hbases, printAllBelow_prints hbody]
        rfl
    | expression pos value =>
      have hvalue := List.forall_mem_singleton.mp hchild
      rw [lower, Node.printBelow, present_lower, hvalue]
      rfl
    | call pos callee args keywords =>
      obtain ⟨-, hrest⟩ := List.forall_mem_cons.mp hchild
      obtain ⟨hargs, hkeywords⟩ := List.forall_mem_append.mp hrest
      rw [lower, printed, Node.printBelow, printAllBelow_prints hargs,
        printAllBelow_keywords hkeywords, call_lower]
      rfl
    | constant pos value => cases value <;> rw [lower, Constant.lower, Node.printBelow] <;> rfl
    | ident pos id =>
      rw [lower, Node.printBelow]
      rfl
    | forLoop pos target iter body orElse =>
      obtain ⟨htarget, hrest⟩ := List.forall_mem_cons.mp hchild
      obtain ⟨hiter, hrest⟩ := List.forall_mem_cons.mp hrest
      obtain ⟨hbody, horElse⟩ := List.forall_mem_append.mp hrest
      rw [lower, Node.printBelow, present_lower, present_lower, htarget, hiter,
        printAllBelow_prints hbody, printAllBelow_prints horElse]
      rfl
    | tuple pos elts =>
      have helts : ∀ s ∈ elts, s.Prints starts := hchild
      rw [lower, Node.printBelow, printAllBelow_prints helts]
      rfl
    | list pos elts =>
      have helts : ∀ s ∈ elts, s.Prints starts := hchild
      rw [lower, Node.printBelow, printAllBelow_prints helts]
      rfl
    | assign pos targets value =>
      obtain ⟨hvalue, htargets⟩ := List.forall_mem_cons.mp hchild
      rw [lower, Node.printBelow, printAllBelow_prints htargets, present_lower, hvalue]
      rfl
    | augAssign pos target op value =>
      obtain ⟨htarget, hrest⟩ := List.forall_mem_cons.mp hchild
      have hvalue := List.forall_mem_singleton.mp hrest
      rw [lower, Node.printBelow, present_lower, present_lower, present_lowerOperator, htarget,
        hvalue, printBelow_lowerOperator]
      rfl
    | dict pos keys values =>
      obtain ⟨hkeys, hvalues⟩ := List.forall_mem_append.mp hchild
      rw [lower, printed]
      split <;> rw [Node.printBelow]
      · rfl
      · rw [printAllBelow_present hkeys rfl, printAllBelow_prints hvalues]
        rfl
    | access pos value attr =>
      have hvalue := List.forall_mem_singleton.mp hchild
      rw [lower, Node.printBelow, present_lower, hvalue]
      rfl
    | compare pos left ops comparators =>
      obtain ⟨hleft, hcomparators⟩ := List.forall_mem_cons.mp hchild
      rw [lower, Node.printBelow, present_lower, hleft, printAllBelow_operators,
        printAllBelow_prints hcomparators]
      rfl
    | other pos kind =>
      rw [lower, Node.printBelow]
      rfl

def Module.printed (m : Module) : Printed := Rule.module (m.body.map (Tree.printed false))

/-- a module is printed as its trees are, without a look at offsets -/
theorem Module.print_lower {m : Module} {text : String} (h : m.Regular text) :
    (m.lower text).print = m.printed := by
  have hbody : ∀ t ∈ m.body, ∀ above, (t.lower (startsOf text)).printBelow above =
      t.printed (above.head?.any Node.isSequence) := fun t ht above =>
    t.printBelow_lower above (Module.forall_subtrees.mp h t ht)
  rw [Module.lower_eq, Node.print, Node.printBelow, printAllBelow_lower fun t ht => hbody t ht _]
  rfl

end

end Reflow.Source
