import Reflow.Doc.Layout
import Reflow.Proofs.DirectPrinting

/-!
# Positions do not show

`Tree.erase` forgets where a tree and its parts stand in the source, and the notes of the tree if it
is not told to keep them.  Neither is looked at when a tree is printed.

* `Tree.printed_erase`     a tree is printed as it would be without positions and notes;
* `Module.render_congr`    two modules that differ in nothing else are rendered alike, whatever texts
                           they come from, or fail alike.
-/

namespace Reflow.Source

def Usage.erase (keepNotes : Bool) (usage : Usage) : Usage := if keepNotes then usage else .load

/-- a note that may be missing, as letters before a text and comments are -/
def eraseNote (keepNotes : Bool) (note? : Option String) : Option String :=
  if keepNotes then note? else none

def Parameter.erase (p : Parameter) (keepNotes : Bool := false) : Parameter :=
  { p with pos := {}, typeComment? := eraseNote keepNotes p.typeComment? }

theorem Usage.erase_false (usage : Usage) : usage.erase false = .load := rfl

theorem eraseNote_false (note? : Option String) : eraseNote false note? = none := rfl

mutual
/-- a tree without positions, and without notes unless they are kept -/
def Tree.erase (t : Tree) (keepNotes : Bool := false) : Tree :=
  match t with
  | .function _ name decorated generic returns params body typeComment? =>
    .function {} name decorated generic returns (params.erase keepNotes) (eraseAll body keepNotes)
      (eraseNote keepNotes typeComment?)
  | .classDef _ name decorated keyworded generic bases body =>
    .classDef {} name decorated keyworded generic (eraseAll bases keepNotes)
      (eraseAll body keepNotes)
  | .expression _ value => .expression {} (value.erase keepNotes)
  | .call _ callee args keywords =>
    .call {} (callee.erase keepNotes) (eraseAll args keepNotes) (eraseKeywords keywords keepNotes)
  | .constant _ value kind? => .constant {} value (eraseNote keepNotes kind?)
  | .ident _ id usage => .ident {} id (usage.erase keepNotes)
  | .forLoop _ target iter body orElse typeComment? =>
    .forLoop {} (target.erase keepNotes) (iter.erase keepNotes) (eraseAll body keepNotes)
      (eraseAll orElse keepNotes) (eraseNote keepNotes typeComment?)
  | .tuple _ elts usage => .tuple {} (eraseAll elts keepNotes) (usage.erase keepNotes)
  | .list _ elts usage => .list {} (eraseAll elts keepNotes) (usage.erase keepNotes)
  | .assign _ targets value typeComment? =>
    .assign {} (eraseAll targets keepNotes) (value.erase keepNotes)
      (eraseNote keepNotes typeComment?)
  | .augAssign _ target op value =>
    .augAssign {} (target.erase keepNotes) op (value.erase keepNotes)
  | .dict _ keys values => .dict {} (eraseOptions keys keepNotes) (eraseAll values keepNotes)
  | .access _ value attr usage =>
    .access {} (value.erase keepNotes) attr (usage.erase keepNotes)
  | .compare _ left ops comparators =>
    .compare {} (left.erase keepNotes) ops (eraseAll comparators keepNotes)
  | .other _ kind => .other {} kind
def eraseAll (ts : List Tree) (keepNotes : Bool := false) : List Tree :=
  match ts with
  | [] => []
  | t :: ts => t.erase keepNotes :: eraseAll ts keepNotes
def eraseOptions (ts : List (Option Tree)) (keepNotes : Bool := false) : List (Option Tree) :=
  match ts with
  | [] => []
  | none :: ts => none :: eraseOptions ts keepNotes
  | some t :: ts => some (t.erase keepNotes) :: eraseOptions ts keepNotes
def eraseKeywords (ks : List Keyword) (keepNotes : Bool := false) : List Keyword :=
  match ks with
  | [] => []
  | .mk _ name value :: ks => .mk {} name (value.erase keepNotes) :: eraseKeywords ks keepNotes
def Parameters.erase (ps : Parameters) (keepNotes : Bool := false) : Parameters :=
  match ps with
  | .mk posOnly params vararg kwOnly kwDefaults kwarg defaults =>
    let group (ps : List Parameter) : List Parameter := ps.map (·.erase keepNotes)
    .mk (group posOnly) (group params) (vararg.map (·.erase keepNotes)) (group kwOnly)
      (eraseOptions kwDefaults keepNotes) (kwarg.map (·.erase keepNotes))
      (eraseAll defaults keepNotes)
end

/-- comments to type checkers without their lines -/
def eraseIgnores (keepNotes : Bool) (ignores : List TypeIgnore) : List TypeIgnore :=
  if keepNotes then ignores.map ({ · with line := 0 }) else []

def Module.erase (m : Module) (keepNotes : Bool := false) : Module where
  body := eraseAll m.body keepNotes
  typeIgnores := eraseIgnores keepNotes m.typeIgnores

/-! ## lists of trees -/

theorem eraseAll_eq_map (ts : List Tree) : eraseAll ts = ts.map (·.erase) := by
  induction ts with
  | nil => rfl
  | cons t ts ih => rw [eraseAll, ih, List.map_cons]

theorem eraseOptions_eq_map (ts : List (Option Tree)) :
    eraseOptions ts = ts.map (Option.map (·.erase)) := by
  induction ts with
  | nil => rfl
  | cons t? ts ih => cases t? <;> simp only [eraseOptions, ih, List.map_cons, Option.map]

def Keyword.erase : Keyword → Keyword
  | .mk _ name value => .mk {} name value.erase

theorem eraseKeywords_eq_map (ks : List Keyword) : eraseKeywords ks = ks.map Keyword.erase := by
  induction ks with
  | nil => rfl
  | cons k ks ih =>
    obtain ⟨pos, name, value⟩ := k
    rw [eraseKeywords, ih, List.map_cons, Keyword.erase]

/-! ## what is printed -/

theorem printed_eraseAll {b : Bool} {ts : List Tree}
    (h : ∀ t ∈ ts, ∀ b, t.erase.printed b = t.printed b) :
    printedAll b (eraseAll ts) = printedAll b ts := by
  rw [printedAll_eq_map, printedAll_eq_map, eraseAll_eq_map, List.map_map]
  exact List.map_congr_left fun t ht => h t ht b

theorem printed_eraseOptions {ts : List (Option Tree)}
    (h : ∀ t ∈ ts.filterMap id, ∀ b, t.erase.printed b = t.printed b) :
    printedOptions (eraseOptions ts) = printedOptions ts := by
  rw [printedOptions_eq_map, printedOptions_eq_map, eraseOptions_eq_map, List.map_map]
  refine List.map_congr_left fun t? ht => ?_
  cases t? with
  | none => rfl
  | some t => exact congrArg some (h t (List.mem_filterMap.mpr ⟨some t, ht, rfl⟩) false)

theorem printed_erasePresent {ts : List (Option Tree)}
    (h : ∀ t ∈ ts.filterMap id, ∀ b, t.erase.printed b = t.printed b) :
    printedPresent (eraseOptions ts) = printedPresent ts := by
  have hpresent (ts : List (Option Tree)) :
      printedPresent ts = (printedOptions ts).filterMap id := by
    rw [printedPresent_eq_map, printedOptions_eq_map, List.map_filterMap, List.filterMap_map]
    rfl
  rw [hpresent, hpresent, printed_eraseOptions h]

theorem printed_eraseKeywords {ks : List Keyword}
    (h : ∀ t ∈ ks.map Keyword.value, ∀ b, t.erase.printed b = t.printed b) :
    printedKeywords (eraseKeywords ks) = printedKeywords ks := by
  rw [printedKeywords_eq_map, printedKeywords_eq_map, eraseKeywords_eq_map, List.map_map]
  refine List.map_congr_left fun k hk => ?_
  have hv := h k.value (List.mem_map_of_mem hk) false
  obtain ⟨pos, name, value⟩ := k
  exact congrArg (Rule.keyword name) hv

theorem printed_eraseParameter (ps : List Parameter) :
    (ps.map (·.erase)).map Parameter.printed = ps.map Parameter.printed := by
  rw [List.map_map]
  rfl

theorem Parameters.printed_erase {ps : Parameters}
    (h : ∀ t ∈ ps.trees, ∀ b, t.erase.printed b = t.printed b) :
    ps.erase.printed = ps.printed := by
  obtain ⟨posOnly, params, vararg, kwOnly, kwDefaults, kwarg, defaults⟩ := ps
  obtain ⟨hdefaults, hkwDefaults⟩ := List.forall_mem_append.mp h
  have hempty : (kwOnly.map (·.erase)).isEmpty = kwOnly.isEmpty := List.isEmpty_map
  have hone (p? : Option Parameter) :
      (p?.map (·.erase)).map Parameter.printed = p?.map Parameter.printed := by
    cases p? <;> rfl
  simp only [erase, printed, ← List.map_append, printed_eraseParameter, printed_eraseAll hdefaults,
    printed_eraseOptions hkwDefaults, hempty, hone, List.length_map]

theorem Parameters.annotated_erase (ps : Parameters) : ps.erase.annotated = ps.annotated := by
  obtain ⟨posOnly, params, vararg, kwOnly, kwDefaults, kwarg, defaults⟩ := ps
  have hall (ps : List Parameter) :
      (ps.map (·.erase)).any (·.annotated) = ps.any (·.annotated) := List.any_map
  have hone (p? : Option Parameter) :
      (p?.map (·.erase)).toList.any (·.annotated) = p?.toList.any (·.annotated) := by
    cases p? <;> rfl
  simp only [erase, annotated, List.any_append, hall, hone]

theorem any_isNone_eraseOptions (ts : List (Option Tree)) :
    (eraseOptions ts).any (·.isNone) = ts.any (·.isNone) := by
  rw [eraseOptions_eq_map, List.any_map]
  congr 1
  funext t?
  cases t? <;> rfl

theorem call_erase (callee : Tree) (args keywords : List Printed) :
    Rule.call (callee.erase.lower []) args keywords =
      Rule.call (callee.lower []) args keywords := by
  cases callee with
  | function pos name decorated generic returns params body =>
    simp only [Tree.erase, Tree.lower, Parameters.annotated_erase]
    (repeat' split) <;> rfl
  | dict pos keys values =>
    simp only [Tree.erase, Tree.lower, any_isNone_eraseOptions]
    split <;> rfl
  | constant pos value => cases value <;> rfl
  | classDef pos name decorated keyworded generic bases body =>
    simp only [Tree.erase, Tree.lower]
    (repeat' split) <;> rfl
  | _ => rfl

theorem Tree.printed_erase (t : Tree) : ∀ b, t.erase.printed b = t.printed b := by
  induction t using Tree.induct_children with
  | step t ih =>
    intro b
    cases t with
    | function pos name decorated generic returns params body =>
      obtain ⟨htrees, hbody⟩ := List.forall_mem_append.mp ih
      rw [erase, printed, printed, Parameters.annotated_erase, Parameters.printed_erase htrees,
        printed_eraseAll hbody]
    | classDef pos name decorated keyworded generic bases body =>
      obtain ⟨hbases, hbody⟩ := List.forall_mem_append.mp ih
      rw [erase, printed, printed, printed_eraseAll hbases, printed_eraseAll hbody]
    | expression pos value =>
      have hvalue := List.forall_mem_singleton.mp ih
      rw [erase, printed, printed, hvalue]
    | call pos callee args keywords =>
      obtain ⟨-, hrest⟩ := List.forall_mem_cons.mp ih
      obtain ⟨hargs, hkeywords⟩ := List.forall_mem_append.mp hrest
      rw [erase, printed, printed, printed_eraseAll hargs, printed_eraseKeywords hkeywords,
        call_erase]
    | constant pos value => rfl
    | ident pos id => rfl
    | forLoop pos target iter body orElse =>
      obtain ⟨htarget, hrest⟩ := List.forall_mem_cons.mp ih
      obtain ⟨hiter, hrest⟩ := List.forall_mem_cons.mp hrest
      obtain ⟨hbody, horElse⟩ := List.forall_mem_append.mp hrest
      rw [erase, printed, printed, htarget, hiter, printed_eraseAll hbody, printed_eraseAll horElse]
    | tuple pos elts =>
      have helts : ∀ s ∈ elts, ∀ b, s.erase.printed b = s.printed b := ih
      rw [erase, printed, printed, printed_eraseAll helts]
    | list pos elts =>
      have helts : ∀ s ∈ elts, ∀ b, s.erase.printed b = s.printed b := ih
      rw [erase, printed, printed, printed_eraseAll helts]
    | assign pos targets value =>
      obtain ⟨hvalue, htargets⟩ := List.forall_mem_cons.mp ih
      rw [erase, printed, printed, printed_eraseAll htargets, hvalue]
    | augAssign pos target op value =>
      obtain ⟨htarget, hrest⟩ := List.forall_mem_cons.mp ih
      have hvalue := List.forall_mem_singleton.mp hrest
      rw [erase, printed, printed, htarget, hvalue]
    | dict pos keys values =>
      obtain ⟨hkeys, hvalues⟩ := List.forall_mem_append.mp ih
      rw [erase, printed, printed, any_isNone_eraseOptions, printed_erasePresent hkeys,
        printed_eraseAll hvalues]
    | access pos value attr =>
      have hvalue := List.forall_mem_singleton.mp ih
      rw [erase, printed, printed, hvalue]
    | compare pos left ops comparators =>
      obtain ⟨hleft, hcomparators⟩ := List.forall_mem_cons.mp ih
      rw [erase, printed, printed, hleft, printed_eraseAll hcomparators]
    | other pos kind => rfl

theorem Module.printed_erase (m : Module) : m.erase.printed = m.printed := by
  rw [Module.printed, Module.printed, Module.erase, eraseAll_eq_map, List.map_map]
  congr 1
  exact List.map_congr_left fun t _ => t.printed_erase false

/-- **Layout of the source does not show.**  Two modules that are equal but for positions, both with
parameters and defaults in the order of their own texts, are rendered to the same text under all
options, or cannot be printed for the same reason. -/
theorem Module.render_congr {m₁ m₂ : Module} {text₁ text₂ : String} (h : m₁.erase = m₂.erase)
    (h₁ : m₁.Regular text₁) (h₂ : m₂.Regular text₂) (o : Options) :
    (m₁.lower text₁).print.map (·.render o) = (m₂.lower text₂).print.map (·.render o) := by
  have hprinted : m₁.printed = m₂.printed := by
    calc m₁.printed = m₁.erase.printed := m₁.printed_erase.symm
      _ = m₂.erase.printed := by rw [h]
      _ = m₂.printed := m₂.printed_erase
  rw [Module.print_lower h₁, Module.print_lower h₂, hprinted]

/-- the header over two lines and the one on one line are both written on one line -/
theorem Module.render_congr_sample :
    let text : String := "def f(a, /, b=x, *, c, d=y, **k):\n    x\n"
    sampleModule.erase = joinedModule.erase ∧ sampleModule.Regular sampleText ∧
    joinedModule.Regular joinedText ∧
    (sampleModule.lower sampleText).print.map (·.render {}) = .ok text ∧
    (joinedModule.lower joinedText).print.map (·.render {}) = .ok text := by
  intro text
  have h : sampleModule.erase = joinedModule.erase := rfl
  have hj : joinedModule.Regular joinedText := by decide
  obtain ⟨d, hd, hrender⟩ :
      ∃ d, (sampleModule.lower sampleText).print = .ok d ∧ d.render {} = text :=
    ⟨_, rfl, by decide +kernel⟩
  have htext : (sampleModule.lower sampleText).print.map (·.render {}) = .ok text := by
    rw [hd]
    exact congrArg Except.ok hrender
  exact ⟨h, sampleModule_regular, hj, htext,
    (Module.render_congr h sampleModule_regular hj {}).symm.trans htext⟩

end Reflow.Source
