import Mathlib.Algebra.Group.Nat.Defs
import Reflow.Format
import Reflow.Proofs.DirectPrinting
import Reflow.Proofs.Outcome

/-!
# What can be formatted

A text without errors is formatted just if every tree of its module has a printing rule, at any
depth: in defaults, values of arguments by name, and blocks after `else` as anywhere else.
Otherwise formatting fails, and the reason is a construct that cannot be printed.

* `Tree.isSupported`         a tree has a printing rule as far as it alone is concerned;
* `Tree.settles_printed`     a tree is printed just if all its subtrees are supported;
* `Parsed.format_supported`  a text is formatted just if its module is supported.

Statements and expressions are one type of trees here.  Where the grammar wants one sort it never
gives the other, so nothing is lost by asking the same of both.
-/

namespace Reflow

namespace Source

/-! ## supported trees -/

def operatorNames : List String := Operator.all.map Operator.name

example : operatorNames.length = 19 := rfl

def Tree.isIdent : Tree → Bool
  | .ident .. => true
  | _ => false

def Constant.isSupported : Constant → Bool
  | .other _ => false
  | _ => true

/-- whether a tree has a printing rule, whatever is inside it -/
def Tree.isSupported : Tree → Bool
  | .function _ _ decorated generic returns params .. =>
    !decorated && !generic && !returns && !params.annotated
  | .classDef _ _ decorated keyworded generic _ _ => !decorated && !keyworded && !generic
  | .call _ callee _ _ => callee.isIdent
  | .constant _ value _ => value.isSupported
  | .augAssign _ _ op _ => operatorNames.contains op
  | .dict _ keys _ => keys.all (·.isSome)
  | .compare _ _ ops _ => ops.all operatorNames.contains
  | .expression .. | .ident .. | .forLoop .. | .tuple .. | .list .. | .assign .. | .access .. => true
  | .other .. => false

def Tree.Supported (t : Tree) : Prop := ∀ s ∈ t.subtrees, s.isSupported = true

/-- every tree of a module has a printing rule, at any depth -/
def Module.Supported (m : Module) : Prop := ∀ s ∈ m.subtrees, s.isSupported = true

instance (m : Module) : Decidable m.Supported :=
  inferInstanceAs (Decidable (∀ s ∈ m.subtrees, s.isSupported = true))

def Tree.int? : Tree → Option Int
  | .constant _ (.number (.int n)) _ => some n
  | _ => none

/-- if a tree is an integer, it is short enough to be written -/
def Tree.Short (t : Tree) : Prop := ∀ n ∈ t.int?, n.natAbs < 10 ^ Number.maxIntegerDigits

def Module.Short (m : Module) : Prop := ∀ s ∈ m.subtrees, s.Short

instance (t : Tree) : Decidable t.Short :=
  inferInstanceAs (Decidable (∀ n ∈ t.int?, n.natAbs < 10 ^ Number.maxIntegerDigits))

instance (m : Module) : Decidable m.Short :=
  inferInstanceAs (Decidable (∀ s ∈ m.subtrees, s.Short))

/-! ## leaves -/

theorem settles_operator (name : String) :
    Settles (operatorNames.contains name = true) (printedOperator name) := by
  have hsymbol : ∀ op ∈ Operator.all, op.symbol?.isSome = true := by decide
  unfold printedOperator Operator.ofName?
  cases hop : Operator.all.find? (·.name == name) with
  | none =>
    refine Settles.refuses (fun h => ?_) name none
    obtain ⟨op, hmem, rfl⟩ := List.mem_map.mp (List.contains_iff_mem.mp h)
    have hne := List.find?_eq_none.mp hop op hmem
    exact hne (beq_self_eq_true op.name)
  | some op =>
    have hmem := List.mem_of_find?_eq_some hop
    have hbeq := List.find?_some hop
    have hname : op.name = name := eq_of_beq hbeq
    have hcontains : operatorNames.contains name = true :=
      List.contains_iff_mem.mpr (List.mem_map.mpr ⟨op, hmem, hname⟩)
    obtain ⟨symbol, hs⟩ := Option.isSome_iff_exists.mp (hsymbol op hmem)
    simp only [Rule.operator, hs]
    exact Settles.ok hcontains _

theorem settles_constant {pos : Position} {value : Constant} {kind? : Option String}
    (h : (Tree.constant pos value kind?).Short) :
    Settles (value.isSupported = true) value.printed := by
  cases value with
  | other typeName => exact Settles.refuses Bool.false_ne_true "Constant" (some typeName)
  | nothing => exact Settles.ok rfl _
  | bool b => cases b <;> exact Settles.ok rfl _
  | text s => exact Settles.ok rfl _
  | number n =>
    cases n with
    | int i =>
      have hi : i.natAbs < Nat.pow 10 Number.maxIntegerDigits := h i rfl
      simp only [Constant.printed, Rule.number, Number.text?, if_pos hi]
      exact Settles.ok rfl _
    | float x => exact Settles.ok rfl _
    | complex re im => exact Settles.ok rfl _

/-- only a name can be called -/
theorem settles_call {callee : Tree} {args keywords : List Printed} {P Q : Prop}
    (ha : Settles P (Printed.all args)) (hk : Settles Q (Printed.all keywords)) :
    Settles (callee.isIdent = true ∧ P ∧ Q) (Rule.call (callee.lower []) args keywords) := by
  have hrefused (t : Tree) (ht : t.isIdent = false)
      (h : ∃ kind detail, Rule.call (t.lower []) args keywords = .error (.unsupported kind detail)) :
      Settles (t.isIdent = true ∧ P ∧ Q) (Rule.call (t.lower []) args keywords) := by
    obtain ⟨kind, detail, he⟩ := h
    rw [he, ht]
    exact Settles.refuses (fun h => Bool.false_ne_true h.1) kind detail
  cases callee with
  | ident pos id => exact (Rule.settles_call ha hk).congr (and_iff_right rfl).symm
  | constant pos value =>
    refine hrefused _ rfl ?_
    cases value <;> exact ⟨_, _, rfl⟩
  | _ =>
    refine hrefused _ rfl ?_
    simp only [Tree.lower]
    (repeat' split) <;> exact ⟨_, _, rfl⟩

/-! ## parameters -/

section
variable {C : Tree → Prop} {g : Tree → Printed}

theorem settles_entries {es : List (Parameter × Option Tree)} {ts : List Tree}
    (hts : es.filterMap (·.2) = ts) (h : ∀ t ∈ ts, Settles (C t) (g t)) :
    Settles (∀ t ∈ ts, C t) (Printed.all (es.map (printedEntry g))) := by
  subst hts
  have hentry : ∀ e ∈ es, Settles (∀ t, e.2 = some t → C t) (printedEntry g e) := by
    rintro ⟨p, t?⟩ he
    cases t? with
    | none => exact Settles.ok (fun t ht => nomatch ht) _
    | some t =>
      have ht := h t (List.mem_filterMap.mpr ⟨(p, some t), he, rfl⟩)
      exact (ht.map _).congr (by simp)
  exact (Settles.all hentry).congr List.forall_mem_filterMap.symm

/-- parameters are printed just if all their defaults are: none of them is left out -/
theorem Parameters.settles_printedBy {ps : Parameters} (hs : ps.Shaped)
    (h : ∀ t ∈ ps.trees, Settles (C t) (g t)) :
    Settles (∀ t ∈ ps.trees, C t) (ps.printedBy g) := by
  obtain ⟨posOnly, params, vararg, kwOnly, kwDefaults, kwarg, defaults⟩ := ps
  have hpositional := settles_entries hs.positional_snd fun t ht =>
    h t (List.mem_append_left _ ht)
  have hbyName := settles_entries hs.byName_snd fun t ht => h t (List.mem_append_right _ ht)
  have hname (p? : Option Parameter) :
      p?.map Parameter.printed = (p?.map (Doc.text ·.name)).map .ok := by
    cases p? <;> rfl
  rw [printedBy, hname, hname, trees]
  refine Settles.congr ?_ List.forall_mem_append.symm
  cases kwOnly with
  | nil =>
    -- without parameters by name there are no defaults for them either
    have hnil : kwDefaults = [] := List.eq_nil_of_length_eq_zero hs.kwDefaults_eq
    subst hnil
    exact Rule.settles_parameters hpositional (fun ds hds => absurd hds (Option.not_mem_none ds))
      fun _ => List.forall_mem_nil C
  | cons p ps =>
    refine Rule.settles_parameters hpositional (fun ds hds => ?_) fun hnone =>
      absurd hnone (Option.some_ne_none _)
    obtain rfl := Option.some.inj hds
    exact hbyName

end

/-! ## trees -/

theorem Tree.supported_iff {t : Tree} :
    t.Supported ↔ t.isSupported = true ∧ ∀ s ∈ t.children, s.Supported := Tree.forall_subtrees

theorem Tree.supported_of_isIdent {t : Tree} (h : t.isIdent = true) : t.Supported := by
  cases t with
  | ident pos id => exact Tree.supported_iff.mpr ⟨rfl, fun s hs => nomatch hs⟩
  | _ => cases h

theorem settles_all {b : Bool} {ts : List Tree}
    (h : ∀ t ∈ ts, ∀ b, Settles t.Supported (t.printed b)) :
    Settles (∀ t ∈ ts, t.Supported) (Printed.all (printedAll b ts)) := by
  rw [printedAll_eq_map]
  exact Settles.all fun t ht => h t ht b

theorem settles_keywords {ks : List Keyword}
    (h : ∀ t ∈ ks.map Keyword.value, ∀ b, Settles t.Supported (t.printed b)) :
    Settles (∀ t ∈ ks.map Keyword.value, t.Supported) (Printed.all (printedKeywords ks)) := by
  rw [printedKeywords_eq_map, List.forall_mem_map]
  refine Settles.all fun k hk => ?_
  have hv := h k.value (List.mem_map_of_mem hk) false
  obtain ⟨pos, name, value⟩ := k
  exact Rule.settles_keyword hv

/-- a tree is printed just if all trees inside it are supported -/
theorem Tree.settles_printed (t : Tree) : (∀ s ∈ t.subtrees, ∀ ps ∈ s.params?, ps.Shaped) →
    (∀ s ∈ t.subtrees, s.Short) → ∀ b, Settles t.Supported (t.printed b) := by
  induction t using Tree.induct_children with
  | step t ih =>
    intro hshaped hshort b
    obtain ⟨hs, hsc⟩ := Tree.forall_subtrees.mp hshaped
    obtain ⟨hi, hic⟩ := Tree.forall_subtrees.mp hshort
    have hchild : ∀ s ∈ t.children, ∀ b, Settles s.Supported (s.printed b) :=
      fun s hc => ih s hc (hsc s hc) (hic s hc)
    -- what the rule asks of a tree itself is `isSupported`, all else is asked of its children
    refine Settles.congr ?_ Tree.supported_iff.symm
    cases t with
    | function pos name decorated generic returns params body =>
      obtain ⟨htrees, hbody⟩ := List.forall_mem_append.mp hchild
      have hparams : Settles (∀ s ∈ params.trees, s.Supported) params.printed := by
        rw [Parameters.printed_eq]
        exact Parameters.settles_printedBy (hs params rfl) fun s hmem => htrees s hmem false
      rw [printed, isSupported]
      cases decorated <;> cases generic <;> cases returns <;> cases params.annotated <;>
        try exact Settles.refuses (fun h => Bool.false_ne_true h.1) _ _
      exact (Rule.settles_function hparams (settles_all hbody)).congr
        (by simp [children, or_imp, forall_and])
    | classDef pos name decorated keyworded generic bases body =>
      obtain ⟨hbases, hbody⟩ := List.forall_mem_append.mp hchild
      rw [printed, isSupported]
      cases decorated <;> cases keyworded <;> cases generic <;>
        try exact Settles.refuses (fun h => Bool.false_ne_true h.1) _ _
      exact (Rule.settles_classDef (settles_all hbases) (settles_all hbody)).congr
        (by simp [children, or_imp, forall_and])
    | expression pos value =>
      have hvalue := List.forall_mem_singleton.mp hchild
      exact (hvalue false).congr (by simp [children, isSupported])
    | call pos callee args keywords =>
      obtain ⟨-, hrest⟩ := List.forall_mem_cons.mp hchild
      obtain ⟨hargs, hkeywords⟩ := List.forall_mem_append.mp hrest
      have hcallee : callee.isIdent = true → callee.Supported := Tree.supported_of_isIdent
      refine (settles_call (settles_all hargs) (settles_keywords hkeywords)).congr ?_
      rw [isSupported, children, List.forall_mem_cons, List.forall_mem_append]
      exact and_congr_right fun h => (and_iff_right (hcallee h)).symm
    | constant pos value => exact (settles_constant hi).congr (by simp [children, isSupported])
    | ident pos id => exact Settles.ok (by simp [children, isSupported]) _
    | forLoop pos target iter body orElse =>
      obtain ⟨htarget, hrest⟩ := List.forall_mem_cons.mp hchild
      obtain ⟨hiter, hrest⟩ := List.forall_mem_cons.mp hrest
      obtain ⟨hbody, horElse⟩ := List.forall_mem_append.mp hrest
      exact (Rule.settles_forLoop (htarget false) (hiter false) (settles_all hbody)
        (settles_all horElse)).congr (by simp [children, isSupported, or_imp, forall_and])
    | tuple pos elts =>
      exact (Rule.settles_tuple (settles_all hchild)).congr (by simp [children, isSupported])
    | list pos elts =>
      exact (Rule.settles_list (settles_all hchild)).congr (by simp [children, isSupported])
    | assign pos targets value =>
      obtain ⟨hvalue, htargets⟩ := List.forall_mem_cons.mp hchild
      exact (Rule.settles_assign (settles_all htargets) (hvalue false)).congr
        (by simp [children, isSupported, and_comm])
    | augAssign pos target op value =>
      obtain ⟨htarget, hrest⟩ := List.forall_mem_cons.mp hchild
      have hvalue := List.forall_mem_singleton.mp hrest
      exact (Rule.settles_augAssign (htarget false) (settles_operator op) (hvalue false)).congr
        (by simp [children, isSupported, and_left_comm])
    | dict pos keys values =>
      obtain ⟨hkeys, hvalues⟩ := List.forall_mem_append.mp hchild
      have hpresent : Settles (∀ s ∈ keys.filterMap id, s.Supported)
          (Printed.all (printedPresent keys)) := by
        rw [printedPresent_eq_map, ← printedAll_eq_map]
        exact settles_all hkeys
      have hnone : keys.any (·.isNone) = !keys.all (·.isSome) := by
        simp [List.any_eq_not_all_not]
      rw [printed, hnone, isSupported]
      cases keys.all (·.isSome) with
      | false => exact Settles.refuses (fun h => Bool.false_ne_true h.1) _ _
      | true =>
        exact (Rule.settles_dict hpresent (settles_all hvalues)).congr
          (by simp [children, or_imp, forall_and])
    | access pos value attr =>
      have hvalue := List.forall_mem_singleton.mp hchild
      exact (Rule.settles_access (hvalue false)).congr (by simp [children, isSupported])
    | compare pos left ops comparators =>
      obtain ⟨hleft, hcomparators⟩ := List.forall_mem_cons.mp hchild
      have hops := Settles.all fun op (_ : op ∈ ops) => settles_operator op
      exact (Rule.settles_compare hops (settles_all hcomparators) (hleft false)).congr
        (by simp [children, isSupported, and_comm])
    | other pos kind => exact Settles.refuses (fun h => Bool.false_ne_true h.1) kind none

theorem Module.settles_printed {m : Module} {text : String} (hr : m.Regular text) (hi : m.Short) :
    Settles m.Supported m.printed := by
  have hbody : ∀ t ∈ m.body, Settles t.Supported (t.printed false) := fun t ht =>
    t.settles_printed (fun s hs ps hps => (Module.forall_subtrees.mp hr t ht s hs ps hps).1)
      (Module.forall_subtrees.mp hi t ht) false
  exact (Rule.settles_module (Settles.all hbody)).congr Module.forall_subtrees.symm

end Source

/-! ## texts -/

namespace Parsed

/-- a tree that is kept is the one that the statements give -/
def KeepsOwn (p : Parsed) : Prop := ∀ n ∈ p.kept?, p.module?.map (·.lower p.text) = some n

theorem keepsOwn_ofText (g : Source.Grammar) (text : String) (o : ParseOptions) :
    (ofText g text o).KeepsOwn := by
  intro n hn
  unfold ofText at hn
  split at hn <;> cases hn

theorem tree?_eq {p : Parsed} (h : p.KeepsOwn) : p.tree? = p.module?.map (·.lower p.text) := by
  unfold tree?
  split
  · next n hn => exact (h n hn).symm
  · rfl

theorem keepsOwn_keepTree {p : Parsed} (h : p.KeepsOwn) : p.keepTree.KeepsOwn := by
  intro n hn
  have hown : p.tree? = some n := hn
  rw [tree?_eq h] at hown
  exact hown

theorem keepsOwn_format {p : Parsed} (h : p.KeepsOwn) (o : Options) : (p.format o).1.KeepsOwn := by
  rw [format]
  split
  · exact h
  · exact keepsOwn_keepTree h

/-- **What can be formatted.**  A text that was read without errors is formatted just if every tree
of its module is supported.  Otherwise formatting fails because some construct cannot be printed. -/
theorem format_supported {p : Parsed} {m : Source.Module} (hm : p.module? = some m)
    (hk : p.KeepsOwn) (he : p.hasErrors = false) (hr : m.Regular p.text) (hi : m.Short)
    (o : Options) :
    ((∃ f, (p.format o).2 = .ok f) ↔ m.Supported) ∧
    (¬ m.Supported → ∃ kind detail, (p.format o).2 = .error (.print (.unsupported kind detail))) := by
  have htree : p.tree = .ok (m.lower p.text) := by
    rw [tree, tree?_eq hk, hm]
    rfl
  have hformat : (p.format o).2 = (do
      let d ← m.printed.mapError .print
      return ⟨d.render o, d.render o != p.text, p.diagnostics⟩) := by
    rw [format, formatted, he, htree, ← Source.Module.print_lower hr]
    rfl
  have hsettles := Source.Module.settles_printed hr hi
  constructor
  · rw [hformat, ← hsettles.iff]
    cases m.printed with
    | ok d => exact ⟨fun _ => ⟨d, rfl⟩, fun _ => ⟨_, rfl⟩⟩
    | error e => exact ⟨fun ⟨f, hf⟩ => (nomatch hf), fun ⟨d, hd⟩ => (nomatch hd)⟩
  · intro hm
    obtain ⟨kind, detail, hd⟩ := hsettles.unsupported hm
    refine ⟨kind, detail, ?_⟩
    rw [hformat, hd]
    rfl

open Source in
theorem format_supported_sample :
    (Parsed.mk sampleText (some sampleModule) [] none).KeepsOwn ∧
    sampleModule.Regular sampleText ∧ sampleModule.Short ∧ sampleModule.Supported ∧
    ∃ f, ((Parsed.mk sampleText (some sampleModule) [] none).format {}).2 = .ok f := by
  have hk : (Parsed.mk sampleText (some sampleModule) [] none).KeepsOwn := fun n hn => nomatch hn
  have hi : sampleModule.Short := by decide
  have hs : sampleModule.Supported := by decide
  exact ⟨hk, sampleModule_regular, hi, hs,
    (format_supported rfl hk rfl sampleModule_regular hi {}).1.mpr hs⟩

end Parsed

end Reflow
