import Mathlib.Data.List.Forall2
import Reflow.Proofs.Locality

/-!
# The documents of the rules

What a rule gives, if it gives a document: the documents of all its parts, joined in one way.

* `mem_intersperse`, `intersperse_append`   parts with a separator between them;
* `bind_eq_ok`, `Printed.all_eq_ok`         results of one part after the other, and of a list;
* `Node.printAllBelow_ok`                   the nodes in a field and their documents, one by one;
* `Rule.module_ok` and so on                the rules, one by one;
* `Node.fragments`, `Node.parameters_ok`    a parameter list, by the documents of the nodes in it.
-/

namespace Reflow

/-! ## joined documents -/

section
variable {α : Type} {sep a : α} {as bs : List α}

theorem intersperse_cons (sep a : α) (as : List α) :
    (a :: as).intersperse sep = a :: as.flatMap fun b => [sep, b] := by
  induction as generalizing a with
  | nil => rfl
  | cons b bs ih => rw [List.intersperse_cons_cons, ih, List.flatMap_cons]; rfl

theorem map_intersperse {β : Type} (f : α → β) (sep : α) (as : List α) :
    (as.intersperse sep).map f = (as.map f).intersperse (f sep) := by
  cases as with
  | nil => rfl
  | cons a as =>
    rw [intersperse_cons, List.map_cons, List.map_cons, intersperse_cons, List.map_flatMap,
      List.flatMap_map]
    rfl

theorem mem_intersperse (h : a ∈ as.intersperse sep) : a = sep ∨ a ∈ as := by
  cases as with
  | nil => cases h
  | cons b bs =>
    rw [intersperse_cons] at h
    rcases List.mem_cons.mp h with h | h
    · exact .inr (List.mem_cons.mpr (.inl h))
    · obtain ⟨c, hc, h⟩ := List.mem_flatMap.mp h
      rcases List.mem_cons.mp h with h | h
      · exact .inl h
      · rw [List.mem_singleton.mp h]
        exact .inr (List.mem_cons_of_mem b hc)

theorem intersperse_append (ha : as ≠ []) (hb : bs ≠ []) :
    (as ++ bs).intersperse sep = as.intersperse sep ++ sep :: bs.intersperse sep := by
  obtain ⟨a, as, rfl⟩ := List.exists_cons_of_ne_nil ha
  obtain ⟨b, bs, rfl⟩ := List.exists_cons_of_ne_nil hb
  rw [List.cons_append, intersperse_cons, intersperse_cons, intersperse_cons, List.flatMap_append,
    List.flatMap_cons]
  rfl

end

theorem exists_of_mem_zipWith {α β γ : Type} {f : α → β → γ} {as : List α} {bs : List β} {c : γ}
    (h : c ∈ as.zipWith f bs) : ∃ a ∈ as, ∃ b ∈ bs, c = f a b := by
  rw [← List.map_uncurry_zip_eq_zipWith] at h
  obtain ⟨⟨a, b⟩, hab, rfl⟩ := List.mem_map.mp h
  exact ⟨a, (List.of_mem_zip hab).1, b, (List.of_mem_zip hab).2, rfl⟩

/-! ## results -/

theorem bind_eq_ok {ε α β : Type} {r : Except ε α} {f : α → Except ε β} {b : β} :
    r >>= f = .ok b ↔ ∃ a, r = .ok a ∧ f a = .ok b := by
  cases r with
  | error e =>
    constructor
    · intro h
      cases h
    · rintro ⟨a, h, -⟩
      cases h
  | ok a =>
    constructor
    · intro h
      exact ⟨a, rfl, h⟩
    · rintro ⟨a', h, hb⟩
      cases h
      exact hb

theorem map_eq_ok {ε α β : Type} {r : Except ε α} {f : α → β} {b : β} :
    (do let a ← r; return f a : Except ε β) = .ok b ↔ ∃ a, r = .ok a ∧ b = f a := by
  rw [bind_eq_ok]
  apply exists_congr
  intro a
  apply and_congr_right
  intro _
  show Except.ok (f a) = .ok b ↔ b = f a
  rw [Except.ok.injEq]
  exact eq_comm

theorem Printed.all_eq_ok {ps : List Printed} {ds : List Doc} :
    Printed.all ps = .ok ds ↔ ps = ds.map .ok := by
  induction ps generalizing ds with
  | nil =>
    constructor
    · intro h
      cases h
      rfl
    · intro h
      rw [List.map_eq_nil_iff.mp h.symm]
      rfl
  | cons p ps ih =>
    rw [Printed.all, bind_eq_ok]
    constructor
    · rintro ⟨d, hp, hrest⟩
      obtain ⟨ds', hps, hds⟩ := map_eq_ok.mp hrest
      rw [hds, hp, ih.mp hps, List.map_cons]
    · intro h
      cases ds with
      | nil => cases h
      | cons d ds =>
        rw [List.map_cons, List.cons.injEq] at h
        exact ⟨d, h.1, map_eq_ok.mpr ⟨ds, ih.mpr h.2, rfl⟩⟩

namespace Node
variable {owner : Node} {above : List Node} {field : String} {ns : List Node}

theorem present_eq_ok {child : Node} {printed : Printed} {d : Doc}
    (h : owner.present field child printed = .ok d) : printed = .ok d := by
  rw [present] at h
  split at h
  · cases h
  · exact h

theorem printAllBelow_ok {ds : List Doc} (h : printAllBelow above owner field ns = ds.map .ok) :
    List.Forall₂ (fun n d => n.printBelow (owner :: above) = .ok d) ns ds := by
  induction ns generalizing ds with
  | nil =>
    rw [List.map_eq_nil_iff.mp h.symm]
    exact .nil
  | cons n ns ih =>
    cases ds with
    | nil => cases h
    | cons d ds =>
      rw [printAllBelow, List.map_cons, List.cons.injEq] at h
      exact .cons (present_eq_ok h.1) (ih h.2)

theorem exists_of_ok_mem {d : Doc} (h : .ok d ∈ printAllBelow above owner field ns) :
    ∃ n ∈ ns, n.printBelow (owner :: above) = .ok d := by
  rw [printAllBelow_eq_map] at h
  obtain ⟨n, hn, hd⟩ := List.mem_map.mp h
  exact ⟨n, hn, present_eq_ok hd⟩

theorem exists_of_mem {ds : List Doc} {d : Doc}
    (h : printAllBelow above owner field ns = ds.map .ok) (hd : d ∈ ds) :
    ∃ n ∈ ns, n.printBelow (owner :: above) = .ok d := by
  have hmem : (.ok d : Printed) ∈ ds.map .ok := List.mem_map_of_mem hd
  rw [← h] at hmem
  exact exists_of_ok_mem hmem

end Node

namespace Rule
open Doc

/-- the document of top-level statements -/
def moduleDoc (body : List Doc) : Doc :=
  concat [join (concat [hardline, hardline]) body, hardline]

def blockDoc (body : List Doc) : Doc := indent (concat [line, join hardline body])

section
variable {d : Doc}

theorem module_ok {body : List Printed} (hne : body ≠ []) :
    module body = .ok d ↔ ∃ ds, body = ds.map .ok ∧ d = moduleDoc ds := by
  have hempty : body.isEmpty = false := List.isEmpty_eq_false_iff.mpr hne
  rw [module, hempty]
  show (do let body ← Printed.all body; return moduleDoc body) = .ok d ↔ _
  simp only [map_eq_ok, Printed.all_eq_ok]

theorem block_ok {body : List Printed} :
    block body = .ok d ↔ ∃ ds, body = ds.map .ok ∧ d = blockDoc ds := by
  show (do let body ← Printed.all body; return blockDoc body) = .ok d ↔ _
  simp only [map_eq_ok, Printed.all_eq_ok]

theorem function_ok {name : String} {params : Printed} {body : List Printed}
    (h : function name params body = .ok d) :
    ∃ p ds, params = .ok p ∧ body = ds.map .ok ∧ d = concat [text "def ", text name,
      group (concat [text "(", indent (concat [softline, p]), softline, text ")"]) false,
      text ":", blockDoc ds] := by
  obtain ⟨p, hp, h⟩ := bind_eq_ok.mp h
  obtain ⟨b, hb, hd⟩ := map_eq_ok.mp h
  obtain ⟨ds, hbody, rfl⟩ := block_ok.mp hb
  exact ⟨p, ds, hp, hbody, hd⟩

theorem classDef_ok {name : String} {bases body : List Printed}
    (h : classDef name bases body = .ok d) :
    ∃ (bs ds : List Doc), bases = bs.map .ok ∧ body = ds.map .ok ∧
      d = concat ([text "class ", text name] ++
        (if bs.isEmpty then [] else [text "(", join (text ",") bs, text ")"]) ++
        [text ":", blockDoc ds]) := by
  cases bases with
  | nil =>
    obtain ⟨b, hb, hd⟩ := map_eq_ok.mp h
    obtain ⟨ds, hbody, rfl⟩ := block_ok.mp hb
    exact ⟨[], ds, rfl, hbody, hd⟩
  | cons base bases =>
    obtain ⟨bs, hbs, h⟩ := bind_eq_ok.mp h
    obtain ⟨b, hb, hd⟩ := map_eq_ok.mp h
    obtain ⟨ds, hbody, rfl⟩ := block_ok.mp hb
    rw [Printed.all_eq_ok] at hbs
    have hne : bs ≠ [] := by
      rintro rfl
      cases hbs
    refine ⟨bs, ds, hbs, hbody, ?_⟩
    rw [List.isEmpty_eq_false_iff.mpr hne]
    exact hd

theorem forLoop_ok {target iter : Printed} {body orElse : List Printed}
    (h : forLoop target iter body orElse = .ok d) :
    ∃ t i ds es, target = .ok t ∧ iter = .ok i ∧ body = ds.map .ok ∧ orElse = es.map .ok ∧
      d = concat ([text "for ", t, text " in ", i, text ":", blockDoc ds] ++
        (if es.isEmpty then [] else [line, text "else:", blockDoc es])) := by
  obtain ⟨t, ht, h⟩ := bind_eq_ok.mp h
  obtain ⟨i, hi, h⟩ := bind_eq_ok.mp h
  obtain ⟨b, hb, h⟩ := bind_eq_ok.mp h
  obtain ⟨ds, hbody, rfl⟩ := block_ok.mp hb
  cases orElse with
  | nil =>
    cases h
    exact ⟨t, i, ds, [], ht, hi, hbody, rfl, rfl⟩
  | cons e es =>
    obtain ⟨b, hb, rfl⟩ := map_eq_ok.mp h
    obtain ⟨es', hes, rfl⟩ := block_ok.mp hb
    have hne : es' ≠ [] := by
      rintro rfl
      cases hes
    refine ⟨t, i, ds, es', ht, hi, hbody, hes, ?_⟩
    rw [List.isEmpty_eq_false_iff.mpr hne]
    rfl

theorem assign_ok {targets : List Printed} {value : Printed} (h : assign targets value = .ok d) :
    ∃ (ts : List Doc) (v : Doc), targets = ts.map .ok ∧ value = .ok v ∧
      d = concat [join (text ", ") ts, text " = ", v] := by
  obtain ⟨ts, hts, h⟩ := bind_eq_ok.mp h
  obtain ⟨v, hv, hd⟩ := map_eq_ok.mp h
  exact ⟨ts, v, Printed.all_eq_ok.mp hts, hv, hd⟩

theorem augAssign_ok {target op value : Printed} (h : augAssign target op value = .ok d) :
    ∃ t o v, target = .ok t ∧ op = .ok o ∧ value = .ok v ∧
      d = concat [t, text " ", o, text "= ", v] := by
  obtain ⟨t, ht, h⟩ := bind_eq_ok.mp h
  obtain ⟨o, ho, h⟩ := bind_eq_ok.mp h
  obtain ⟨v, hv, hd⟩ := map_eq_ok.mp h
  exact ⟨t, o, v, ht, ho, hv, hd⟩

theorem call_ok {callee : Node} {args keywords : List Printed}
    (h : call callee args keywords = .ok d) :
    ∃ offset id as ks, callee = .ident offset id ∧ args = as.map .ok ∧ keywords = ks.map .ok ∧
      d = concat [text id, text "(", join (text ", ") (as ++ ks), text ")"] := by
  cases callee with
  | ident offset id =>
    obtain ⟨as, has, h⟩ := bind_eq_ok.mp h
    obtain ⟨ks, hks, hd⟩ := map_eq_ok.mp h
    exact ⟨offset, id, as, ks, rfl, Printed.all_eq_ok.mp has, Printed.all_eq_ok.mp hks, hd⟩
  | _ => cases h

theorem keyword_ok {name : Option String} {value : Printed} (h : keyword name value = .ok d) :
    ∃ v, value = .ok v ∧
      d = concat (name.elim [text "**"] (fun name => [text name, text "="]) ++ [v]) := by
  obtain ⟨v, hv, hd⟩ := map_eq_ok.mp h
  cases name <;> exact ⟨v, hv, hd⟩

theorem tuple_ok {inSequence : Bool} {elts : List Printed} (h : tuple inSequence elts = .ok d) :
    d = text "()" ∨ ∃ ds items, elts = ds.map .ok ∧
      (items = join (text ", ") ds ∨ ∃ item ∈ ds, items = concat [item, text ","]) ∧
      d = if inSequence then concat [text "(", items, text ")"] else items := by
  cases elts with
  | nil =>
    cases h
    exact .inl rfl
  | cons e es =>
    obtain ⟨ds, hds, h⟩ := map_eq_ok.mp h
    refine .inr ⟨ds, _, Printed.all_eq_ok.mp hds, ?_, h⟩
    split
    · next item => exact .inr ⟨item, List.mem_singleton_self item, rfl⟩
    · exact .inl rfl

theorem list_ok {elts : List Printed} (h : list elts = .ok d) :
    ∃ ds, elts = ds.map .ok ∧ d = concat [text "[", join (text ", ") ds, text "]"] := by
  obtain ⟨ds, hds, hd⟩ := map_eq_ok.mp h
  exact ⟨ds, Printed.all_eq_ok.mp hds, hd⟩

theorem dict_ok {keys values : List Printed} (h : dict keys values = .ok d) :
    ∃ (ks vs : List Doc), keys = ks.map .ok ∧ values = vs.map .ok ∧
      d = group (concat [text "\x7b",
        indent (join (text ",")
          (ks.zipWith (fun key value => concat [softline, key, text ": ", value]) vs)),
        softline, text "\x7d"]) false := by
  obtain ⟨ks, hks, h⟩ := bind_eq_ok.mp h
  obtain ⟨vs, hvs, hd⟩ := map_eq_ok.mp h
  exact ⟨ks, vs, Printed.all_eq_ok.mp hks, Printed.all_eq_ok.mp hvs, hd⟩

theorem access_ok {value : Printed} {attr : String} (h : access value attr = .ok d) :
    ∃ v, value = .ok v ∧ d = concat [v, text ".", text attr] := map_eq_ok.mp h

theorem compare_ok {left : Printed} {ops comparators : List Printed}
    (h : compare left ops comparators = .ok d) :
    ∃ (l : Doc) (os cs : List Doc), left = .ok l ∧ ops = os.map .ok ∧ comparators = cs.map .ok ∧
      d = concat (l :: os.zipWith (fun op c => concat [text " ", op, text " ", c]) cs) := by
  obtain ⟨os, hos, h⟩ := bind_eq_ok.mp h
  obtain ⟨cs, hcs, h⟩ := bind_eq_ok.mp h
  obtain ⟨l, hl, hd⟩ := map_eq_ok.mp h
  exact ⟨l, os, cs, hl, Printed.all_eq_ok.mp hos, Printed.all_eq_ok.mp hcs, hd⟩

theorem operator_ok {op : Operator} (h : operator op = .ok d) :
    ∃ symbol, op.symbol? = some symbol ∧ d = text symbol := by
  rw [operator] at h
  cases hop : op.symbol? with
  | none =>
    rw [hop] at h
    cases h
  | some symbol =>
    rw [hop] at h
    cases h
    exact ⟨symbol, rfl, rfl⟩

theorem number_ok {n : Number} (h : number n = .ok d) :
    ∃ s, n.text? = some s ∧ d = text s := by
  rw [number] at h
  cases hn : n.text? with
  | none =>
    rw [hn] at h
    cases h
  | some s =>
    rw [hn] at h
    cases h
    exact ⟨s, rfl, rfl⟩

end

/-! ## parameters -/

/-- a printed parameter stands alone or before a printed default -/
theorem merged_ok {paramNodes defaultNodes : List Node} {params defaults : List Printed}
    {ds : List Doc} (h : merged paramNodes defaultNodes params defaults = .ok ds) :
    ∀ d ∈ ds, ∃ p, .ok p ∈ params ∧
      (d = concat [p] ∨ ∃ v, .ok v ∈ defaults ∧ d = concat [p, text "=", v]) := by
  rw [merged] at h
  split at h
  · cases h
  · rw [withDefaults, Printed.all_eq_ok] at h
    intro d hd
    have hmem : (.ok d : Printed) ∈ ds.map .ok := List.mem_map_of_mem hd
    rw [← h] at hmem
    obtain ⟨⟨i, j?⟩, -, hpair⟩ := List.mem_map.mp hmem
    obtain ⟨p, hp, hpair⟩ := bind_eq_ok.mp hpair
    have hparam : .ok p ∈ params := by
      cases hi : params[i]? with
      | none =>
        rw [hi] at hp
        cases hp
      | some x =>
        rw [hi] at hp
        have hx : x = .ok p := hp
        exact hx ▸ List.mem_of_getElem? hi
    refine ⟨p, hparam, ?_⟩
    cases j? with
    | none =>
      cases hpair
      exact .inl rfl
    | some j =>
      obtain ⟨v, hv, rfl⟩ := map_eq_ok.mp hpair
      have hdflt : .ok v ∈ defaults := by
        cases hj : defaults[j]? with
        | none =>
          rw [hj] at hv
          cases hv
        | some x =>
          rw [hj] at hv
          have hx : x = .ok v := hv
          exact hx ▸ List.mem_of_getElem? hj
      exact .inr ⟨v, hdflt, rfl⟩

/-- `*` with or without a name, before the parameters by name -/
def starDocs (vararg : Option Printed) (opens : Bool) : Except PrintError (List Doc) :=
  match vararg with
  | some v => do return [concat [text "*", ← v]]
  | none => .ok (if opens then [text "*"] else [])

def doubleStarDocs (kwarg : Option Printed) : Except PrintError (List Doc) :=
  match kwarg with
  | some v => do return [concat [text "**", ← v]]
  | none => .ok []

def withSlash (count : Nat) (ds : List Doc) : List Doc :=
  if count = 0 then ds else ds.take count ++ text "/" :: ds.drop count

theorem mem_withSlash {count : Nat} {ds : List Doc} {e : Doc} (h : e ∈ withSlash count ds) :
    e ∈ ds ∨ e = text "/" := by
  rw [withSlash] at h
  split at h
  · exact .inl h
  · rcases List.mem_append.mp h with h | h
    · exact .inl (List.mem_of_mem_take h)
    · rcases List.mem_cons.mp h with h | h
      · exact .inr h
      · exact .inl (List.mem_of_mem_drop h)

theorem mem_starDocs {vararg : Option Printed} {opens : Bool} {ds : List Doc} {e : Doc}
    (h : starDocs vararg opens = .ok ds) (he : e ∈ ds) :
    e = text "*" ∨ ∃ v, vararg = some (.ok v) ∧ e = concat [text "*", v] := by
  cases vararg with
  | none =>
    cases h
    cases opens with
    | false => cases he
    | true => exact .inl (List.mem_singleton.mp he)
  | some r =>
    obtain ⟨v, rfl, rfl⟩ := map_eq_ok.mp h
    exact .inr ⟨v, rfl, List.mem_singleton.mp he⟩

theorem mem_doubleStarDocs {kwarg : Option Printed} {ds : List Doc} {e : Doc}
    (h : doubleStarDocs kwarg = .ok ds) (he : e ∈ ds) :
    ∃ v, kwarg = some (.ok v) ∧ e = concat [text "**", v] := by
  cases kwarg with
  | none =>
    cases h
    cases he
  | some r =>
    obtain ⟨v, rfl, rfl⟩ := map_eq_ok.mp h
    exact ⟨v, rfl, List.mem_singleton.mp he⟩

section
variable {count : Nat} {positional : Except PrintError (List Doc)} {vararg kwarg : Option Printed}
  {byName : Option (Except PrintError (List Doc))}

/-- what stands between the commas of a parameter list -/
def fragments (count : Nat) (positional : Except PrintError (List Doc)) (vararg : Option Printed)
    (byName : Option (Except PrintError (List Doc))) (kwarg : Option Printed) :
    Except PrintError (List Doc) := do
  let front ← positional
  let star ← starDocs vararg byName.isSome
  let named ← byName.getD (.ok [])
  let rest ← doubleStarDocs kwarg
  return withSlash count front ++ star ++ named ++ rest

theorem parameters_eq : parameters count positional vararg byName kwarg = (do
    let es ← fragments count positional vararg byName kwarg
    return join (concat [text ", ", softline]) es) := by
  rcases positional with _ | front <;> rcases vararg with _ | (_ | v) <;>
    rcases byName with _ | (_ | named) <;> rcases kwarg with _ | (_ | w) <;> rfl

theorem mem_fragments {es : List Doc} {e : Doc}
    (h : fragments count positional vararg byName kwarg = .ok es) (he : e ∈ es) :
    (∃ ds, positional = .ok ds ∧ e ∈ ds) ∨ (∃ ds, byName = some (.ok ds) ∧ e ∈ ds) ∨
      e = text "/" ∨ e = text "*" ∨
      (∃ v, vararg = some (.ok v) ∧ e = concat [text "*", v]) ∨
      ∃ v, kwarg = some (.ok v) ∧ e = concat [text "**", v] := by
  obtain ⟨front, hfront, h⟩ := bind_eq_ok.mp h
  obtain ⟨star, hstar, h⟩ := bind_eq_ok.mp h
  obtain ⟨named, hnamed, h⟩ := bind_eq_ok.mp h
  obtain ⟨rest, hrest, rfl⟩ := map_eq_ok.mp h
  rcases List.mem_append.mp he with he | he
  · rcases List.mem_append.mp he with he | he
    · rcases List.mem_append.mp he with he | he
      · rcases mem_withSlash he with he | he
        · exact .inl ⟨front, hfront, he⟩
        · exact .inr (.inr (.inl he))
      · rcases mem_starDocs hstar he with he | he
        · exact .inr (.inr (.inr (.inl he)))
        · exact .inr (.inr (.inr (.inr (.inl he))))
    · cases byName with
      | none =>
        cases hnamed
        cases he
      | some r => exact .inr (.inl ⟨named, congrArg some hnamed, he⟩)
  · exact .inr (.inr (.inr (.inr (.inr (mem_doubleStarDocs hrest he)))))

end

end Rule

namespace Node
open Doc

/-- what stands between the commas of a parameter list -/
def fragments : Node → Except PrintError (List Doc)
  | n@(.parameters _ posOnly params defaults vararg kwOnly kwDefaults kwarg) =>
    Rule.fragments posOnly.length
      (Rule.merged (posOnly ++ params) defaults
        (printAllBelow [] n "posonlyargs" posOnly ++ printAllBelow [] n "args" params)
        (printAllBelow [] n "defaults" defaults))
      (if vararg.isNothing then none
        else some (n.present "vararg" vararg (vararg.printBelow [n])))
      (if kwOnly.isEmpty then none
        else some (Rule.merged kwOnly kwDefaults (printAllBelow [] n "kwonlyargs" kwOnly)
          (printAllBelow [] n "kw_defaults" kwDefaults)))
      (if kwarg.isNothing then none
        else some (n.present "kwarg" kwarg (kwarg.printBelow [n])))
  | n => .error (.unsupported n.kind none)

section
variable {P : Doc → Prop} {offset : Int} {posOnly params defaults : List Node} {vararg : Node}
  {kwOnly kwDefaults : List Node} {kwarg : Node} {above : List Node} {d : Doc} {es : List Doc}

theorem printBelow_parameters
    (h : (parameters offset posOnly params defaults vararg kwOnly kwDefaults kwarg).printBelow above
      = .ok d) :
    ∃ es, (parameters offset posOnly params defaults vararg kwOnly kwDefaults kwarg).fragments =
      .ok es ∧ d = join (concat [text ", ", softline]) es := by
  have hchild (owner m : Node) : m.printBelow (owner :: above) = m.printBelow [owner] :=
    m.printBelow_congr _ _ fun _ => rfl
  have hall (owner : Node) (field : String) (ns : List Node) :
      printAllBelow above owner field ns = printAllBelow [] owner field ns :=
    printAllBelow_congr fun m _ => hchild owner m
  rw [printBelow, Rule.parameters_eq] at h
  simp only [hchild, hall] at h
  exact map_eq_ok.mp h

/-- the fragments of a parameter list, if `P` holds of the document of every node in it -/
theorem mem_fragments
    (hP : ∀ m ∈ (parameters offset posOnly params defaults vararg kwOnly kwDefaults kwarg).children,
      ∀ above e, m.printBelow above = .ok e → P e)
    (h : (parameters offset posOnly params defaults vararg kwOnly kwDefaults kwarg).fragments
      = .ok es) :
    ∀ e ∈ es, e = text "/" ∨ e = text "*" ∨
      (∃ p, P p ∧ (e = concat [p] ∨ e = concat [text "*", p] ∨ e = concat [text "**", p])) ∨
      ∃ p v, P p ∧ P v ∧ e = concat [p, text "=", v] := by
  obtain ⟨hvararg, hkwarg, hposOnly, hparams, hdefaults, hkwOnly, hkwDefaults⟩ :=
    forall_children_parameters.mp hP
  have hall {owner : Node} {field : String} {ns : List Node}
      (hns : ∀ m ∈ ns, ∀ above e, m.printBelow above = .ok e → P e) {e : Doc}
      (he : .ok e ∈ printAllBelow [] owner field ns) : P e := by
    obtain ⟨m, hm, he⟩ := exists_of_ok_mem he
    exact hns m hm _ e he
  intro e he
  rcases Rule.mem_fragments h he with
    ⟨ds, hds, he⟩ | ⟨ds, hds, he⟩ | rfl | rfl | ⟨v, hv, rfl⟩ | ⟨v, hv, rfl⟩
  · -- with a position
    obtain ⟨p, hp, he⟩ := Rule.merged_ok hds e he
    have hp : P p := by
      rcases List.mem_append.mp hp with hp | hp
      · exact hall hposOnly hp
      · exact hall hparams hp
    rcases he with rfl | ⟨v, hv, rfl⟩
    · exact .inr (.inr (.inl ⟨p, hp, .inl rfl⟩))
    · exact .inr (.inr (.inr ⟨p, v, hp, hall hdefaults hv, rfl⟩))
  · -- by name only
    split at hds
    · cases hds
    · obtain ⟨p, hp, he⟩ := Rule.merged_ok (Option.some.inj hds) e he
      rcases he with rfl | ⟨v, hv, rfl⟩
      · exact .inr (.inr (.inl ⟨p, hall hkwOnly hp, .inl rfl⟩))
      · exact .inr (.inr (.inr ⟨p, v, hall hkwOnly hp, hall hkwDefaults hv, rfl⟩))
  · exact .inl rfl
  · exact .inr (.inl rfl)
  · split at hv
    · cases hv
    · have hv := hvararg _ _ (present_eq_ok (Option.some.inj hv))
      exact .inr (.inr (.inl ⟨v, hv, .inr (.inl rfl)⟩))
  · split at hv
    · cases hv
    · have hv := hkwarg _ _ (present_eq_ok (Option.some.inj hv))
      exact .inr (.inr (.inl ⟨v, hv, .inr (.inr rfl)⟩))

theorem parameters_ok
    (hP : ∀ m ∈ (parameters offset posOnly params defaults vararg kwOnly kwDefaults kwarg).children,
      ∀ above e, m.printBelow above = .ok e → P e)
    (h : (parameters offset posOnly params defaults vararg kwOnly kwDefaults kwarg).printBelow above
      = .ok d) :
    ∃ es, d = join (concat [text ", ", softline]) es ∧
      ∀ e ∈ es, e = text "/" ∨ e = text "*" ∨
        (∃ p, P p ∧ (e = concat [p] ∨ e = concat [text "*", p] ∨ e = concat [text "**", p])) ∨
        ∃ p v, P p ∧ P v ∧ e = concat [p, text "=", v] := by
  obtain ⟨es, hes, hd⟩ := printBelow_parameters h
  exact ⟨es, hd, mem_fragments hP hes⟩

end

theorem printAllBelow_ne_nil {above : List Node} {owner : Node} {field : String} {ns : List Node}
    (h : ns ≠ []) : printAllBelow above owner field ns ≠ [] := by
  rw [printAllBelow_eq_map]
  exact (List.map_eq_nil_iff.not).mpr h

theorem print_module {offset : Int} {body : List Node} {d : Doc} (hne : body ≠ []) :
    (module offset body).print = .ok d ↔
      ∃ ds, printAllBelow [] (module offset body) "body" body = ds.map .ok ∧
        d = Rule.moduleDoc ds := by
  rw [print, printBelow]
  exact Rule.module_ok (printAllBelow_ne_nil hne)

end Node

end Reflow
