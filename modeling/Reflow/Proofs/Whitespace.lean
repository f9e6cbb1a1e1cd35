import Reflow.Proofs.ForcedBreaks
import Reflow.Proofs.Locality
import Reflow.Proofs.RuleDocuments

/-!
# Layout only touches whitespace

Where lines end, how far they are indented, and which blanks at their ends are dropped: the rest of
a text is the texts of its document, one after the other.  It must be clear which texts are taken,
so this is about documents without an `ifBreak`; printing makes no others.

* `Text.solid`                     a text without its whitespace;
* `Doc.letters`, `Doc.IfBreakFree` the texts of a document; nothing in it hangs on the mode;
* `Page.Step.solid_letters`        a command moves texts from the stack to the page, nothing else;
* `Node.ifBreakFree_of_print`      nothing that is printed hangs on the mode;
* `Doc.solid_render`               so two pages show the same text but for whitespace.
-/

namespace Reflow

namespace Text

/-- whether a character is a space, a tab, a carriage return or a line feed -/
def isWhitespace (c : Char) : Bool := [' ', '\t', '\r', '\n'].contains c

/-- a text without its whitespace -/
def solid (cs : List Char) : List Char := cs.filter (!isWhitespace ·)

theorem solid_append (cs ds : List Char) : solid (cs ++ ds) = solid cs ++ solid ds :=
  List.filter_append cs ds

theorem solid_reverse (cs : List Char) : solid cs.reverse = (solid cs).reverse :=
  List.filter_reverse

theorem solid_eq_nil {cs : List Char} (h : ∀ c ∈ cs, isWhitespace c = true) : solid cs = [] := by
  rw [solid, List.filter_eq_nil_iff]
  intro c hc
  rw [h c hc]
  exact Bool.false_ne_true

theorem solid_replicate (n : Nat) : solid (List.replicate n ' ') = [] :=
  solid_eq_nil fun c hc => by rw [List.eq_of_mem_replicate hc]; rfl

theorem solid_newline (e : EndOfLine) : solid e.newline = [] := by cases e <;> rfl

theorem solid_trimmed (cs : List Char) : solid (Page.trimmed cs) = solid cs := by
  obtain ⟨blanks, hcs, hblanks⟩ := Page.exists_blanks cs
  have hnil : solid blanks = [] := solid_eq_nil fun c hc => by
    rcases hblanks c hc with rfl | rfl <;> rfl
  calc solid (Page.trimmed cs)
      = solid (blanks ++ Page.trimmed cs) := by rw [solid_append, hnil, List.nil_append]
    _ = solid cs := by rw [← hcs]

end Text

open Text

namespace Doc

mutual
/-- the texts of a document, one after the other -/
def letters : Doc → List Char
  | .text s => s.toList
  | .concat parts => lettersAll parts
  | .group contents _ => contents.letters
  | .indent contents => contents.letters
  | .ifBreak broken flat => broken.letters ++ flat.letters
  | .breakParent => []
  | .linebreak _ _ => []
def lettersAll : List Doc → List Char
  | [] => []
  | d :: ds => d.letters ++ lettersAll ds
end

mutual
/-- no part of a document hangs on the mode it is laid out in -/
def IfBreakFree : Doc → Prop
  | .concat parts => IfBreakFreeAll parts
  | .group contents _ => contents.IfBreakFree
  | .indent contents => contents.IfBreakFree
  | .ifBreak _ _ => False
  | .text _ | .breakParent | .linebreak _ _ => True
def IfBreakFreeAll : List Doc → Prop
  | [] => True
  | d :: ds => d.IfBreakFree ∧ IfBreakFreeAll ds
end

theorem lettersAll_eq (ds : List Doc) : lettersAll ds = ds.flatMap letters := by
  induction ds with
  | nil => rfl
  | cons d ds ih => rw [lettersAll, ih, List.flatMap_cons]

theorem ifBreakFreeAll_iff (ds : List Doc) : IfBreakFreeAll ds ↔ ∀ d ∈ ds, d.IfBreakFree := by
  induction ds with
  | nil => exact ⟨fun _ d hd => (nomatch hd), fun _ => trivial⟩
  | cons d ds ih => rw [IfBreakFreeAll, ih, List.forall_mem_cons]

mutual
theorem letters_propagate : ∀ d : Doc, d.propagate.1.letters = d.letters
  | .text _ => rfl
  | .concat parts => lettersAll_propagateAll parts
  | .group contents _ => contents.letters_propagate
  | .indent contents => contents.letters_propagate
  | .ifBreak broken flat => congrArg₂ (· ++ ·) broken.letters_propagate flat.letters_propagate
  | .breakParent => rfl
  | .linebreak _ _ => rfl
theorem lettersAll_propagateAll : ∀ ds : List Doc, lettersAll (propagateAll ds).1 = lettersAll ds
  | [] => rfl
  | d :: ds => congrArg₂ (· ++ ·) d.letters_propagate (lettersAll_propagateAll ds)
end

mutual
theorem ifBreakFree_propagate : ∀ d : Doc, d.propagate.1.IfBreakFree ↔ d.IfBreakFree
  | .text _ => Iff.rfl
  | .concat parts => ifBreakFreeAll_propagateAll parts
  | .group contents _ => contents.ifBreakFree_propagate
  | .indent contents => contents.ifBreakFree_propagate
  | .ifBreak _ _ => Iff.rfl
  | .breakParent => Iff.rfl
  | .linebreak _ _ => Iff.rfl
theorem ifBreakFreeAll_propagateAll :
    ∀ ds : List Doc, IfBreakFreeAll (propagateAll ds).1 ↔ IfBreakFreeAll ds
  | [] => Iff.rfl
  | d :: ds => and_congr d.ifBreakFree_propagate (ifBreakFreeAll_propagateAll ds)
end

end Doc

/-! ## along a run -/

namespace Page
variable {o : Options} {p q : Page}

/-- what has been written, and the texts that are still to be written -/
def letters (p : Page) : List Char := p.written.reverse ++ p.todo.flatMap (·.doc.letters)

def IfBreakFree (p : Page) : Prop := ∀ c ∈ p.todo, c.doc.IfBreakFree

theorem letters_spread (level : Nat) (mode : Mode) (parts : List Doc) :
    (Command.spread level mode parts).flatMap (·.doc.letters) = Doc.lettersAll parts := by
  rw [Doc.lettersAll_eq, Command.spread, List.flatMap_map]

theorem Step.ifBreakFree (h : Step o p q) (hp : p.IfBreakFree) : q.IfBreakFree := by
  cases h with
  | concat =>
    obtain ⟨hhead, hrest⟩ := List.forall_mem_cons.mp hp
    have hparts := (Doc.ifBreakFreeAll_iff _).mp hhead
    exact List.forall_mem_append.mpr ⟨List.forall_mem_map.mpr hparts, hrest⟩
  | ifBreak => exact (hp _ List.mem_cons_self).elim
  | indent => exact List.forall_mem_cons.mpr (List.forall_mem_cons.mp hp)
  | inherited => exact List.forall_mem_cons.mpr (List.forall_mem_cons.mp hp)
  | fitted => exact List.forall_mem_cons.mpr (List.forall_mem_cons.mp hp)
  | unfitted => exact List.forall_mem_cons.mpr (List.forall_mem_cons.mp hp)
  | marked => exact List.forall_mem_cons.mpr (List.forall_mem_cons.mp hp)
  | _ => exact (List.forall_mem_cons.mp hp).2

/-- a command moves texts from the stack to the page, and it adds or drops nothing but whitespace -/
theorem Step.solid_letters (h : Step o p q) (hp : p.IfBreakFree) :
    solid q.letters = solid p.letters := by
  cases h with
  | text =>
    simp only [letters, List.reverse_append, List.reverse_reverse, List.flatMap_cons, Doc.letters,
      List.append_assoc]
  | concat =>
    simp only [letters, List.flatMap_append, List.flatMap_cons, letters_spread, Doc.letters]
  | ifBreak => exact (hp _ List.mem_cons_self).elim
  | space =>
    have hspace : solid [' '] = [] := rfl
    simp only [letters, List.reverse_cons, List.flatMap_cons, Doc.letters, solid_append, hspace,
      List.append_nil, List.nil_append]
  | newline =>
    simp only [letters, List.reverse_append, List.reverse_reverse, List.reverse_replicate,
      List.flatMap_cons, Doc.letters, solid_append, solid_reverse, solid_trimmed, solid_newline,
      solid_replicate, List.append_nil, List.nil_append]
  | _ => rfl

theorem solid_run (o : Options) (p : Page) (hp : p.IfBreakFree) :
    solid (p.run o).written.reverse = solid p.letters := by
  induction p using induct_step o with
  | stop p hstop =>
    have htodo : p.todo = [] := by
      rw [step] at hstop
      split at hstop
      · assumption
      · cases hstop
    rw [run_none hstop, letters, htodo, List.flatMap_nil, List.append_nil]
  | step p q hq ih =>
    have hstep := step_iff.mp hq
    rw [run_some hq, ih (hstep.ifBreakFree hp), hstep.solid_letters hp]

end Page

theorem Doc.solid_layout (o : Options) {d : Doc} (h : d.IfBreakFree) :
    solid (d.layout o) = solid d.letters := by
  have hstart : (Page.start d).IfBreakFree := by
    intro c hc
    rw [List.mem_singleton.mp hc]
    exact d.ifBreakFree_propagate.mpr h
  have hletters : (Page.start d).letters = d.letters := by
    show [] ++ (d.propagate.1.letters ++ []) = d.letters
    rw [List.nil_append, List.append_nil, d.letters_propagate]
  rw [layout, Page.solid_run o _ hstart, hletters]

/-! ## what is printed -/

namespace Doc

theorem ifBreakFree_concat {ds : List Doc} (h : ∀ d ∈ ds, d.IfBreakFree) :
    (concat ds).IfBreakFree := (ifBreakFreeAll_iff ds).mpr h

theorem ifBreakFree_join {sep : Doc} {ds : List Doc} (hsep : sep.IfBreakFree)
    (h : ∀ d ∈ ds, d.IfBreakFree) : (join sep ds).IfBreakFree := by
  apply ifBreakFree_concat
  intro d hd
  rcases mem_intersperse hd with rfl | hd
  · exact hsep
  · exact h d hd

theorem ifBreakFree_block {ds : List Doc} (h : ∀ d ∈ ds, d.IfBreakFree) :
    (Rule.blockDoc ds).IfBreakFree :=
  ⟨trivial, ifBreakFree_join ⟨trivial, trivial, trivial⟩ h, trivial⟩

end Doc

namespace Node
open Doc

section
variable {owner : Node} {above : List Node} {field : String} {ns : List Node}

theorem ifBreakFree_of_mem
    (ih : ∀ m ∈ ns, ∀ above d, m.printBelow above = .ok d → d.IfBreakFree) {ds : List Doc}
    (h : printAllBelow above owner field ns = ds.map .ok) : ∀ d ∈ ds, d.IfBreakFree := by
  intro d hd
  obtain ⟨m, hm, hd⟩ := exists_of_mem h hd
  exact ih m hm (owner :: above) d hd

end

theorem ifBreakFree_of_printBelow (n : Node) :
    ∀ above d, n.printBelow above = .ok d → d.IfBreakFree := by
  induction n using induct_children with
  | step n ih =>
    intro above d h
    have hcomma : (text ", ").IfBreakFree := trivial
    have hhard : hardline.IfBreakFree := ⟨trivial, trivial, trivial⟩
    cases n with
    | module offset body =>
      cases body with
      | nil =>
        cases h
        trivial
      | cons m body =>
        rw [children] at ih
        obtain ⟨ds, hds, rfl⟩ := (Rule.module_ok (List.cons_ne_nil _ _)).mp h
        exact ⟨ifBreakFree_join ⟨hhard, hhard, trivial⟩ (ifBreakFree_of_mem ih hds), hhard, trivial⟩
    | function offset name params body =>
      obtain ⟨hparams, hbody⟩ := List.forall_mem_cons.mp ih
      obtain ⟨p, ds, hp, hds, rfl⟩ := Rule.function_ok h
      have hp := hparams _ _ (present_eq_ok hp)
      have hblock := ifBreakFree_block (ifBreakFree_of_mem hbody hds)
      exact ⟨trivial, trivial, ⟨trivial, ⟨trivial, hp, trivial⟩, trivial, trivial, trivial⟩, trivial,
        hblock, trivial⟩
    | parameters offset posOnly params defaults vararg kwOnly kwDefaults kwarg =>
      have hsep : (concat [text ", ", softline]).IfBreakFree := ⟨trivial, trivial, trivial⟩
      obtain ⟨es, rfl, hes⟩ := parameters_ok ih h
      apply ifBreakFree_join hsep
      intro e he
      rcases hes e he with rfl | rfl | ⟨p, hp, rfl | rfl | rfl⟩ | ⟨p, v, hp, hv, rfl⟩
      · trivial
      · trivial
      · exact ⟨hp, trivial⟩
      · exact ⟨trivial, hp, trivial⟩
      · exact ⟨trivial, hp, trivial⟩
      · exact ⟨hp, trivial, hv, trivial⟩
    | expression offset value =>
      have hvalue := List.forall_mem_singleton.mp ih
      exact hvalue _ _ (present_eq_ok h)
    | call offset callee args keywords =>
      obtain ⟨-, hrest⟩ := List.forall_mem_cons.mp ih
      obtain ⟨hargs, hkeywords⟩ := List.forall_mem_append.mp hrest
      obtain ⟨offset, id, as, ks, -, has, hks, rfl⟩ := Rule.call_ok h
      have hitems := List.forall_mem_append.mpr
        ⟨ifBreakFree_of_mem hargs has, ifBreakFree_of_mem hkeywords hks⟩
      exact ⟨trivial, trivial, ifBreakFree_join hcomma hitems, trivial, trivial⟩
    | keyword offset name value =>
      have hvalue := List.forall_mem_singleton.mp ih
      obtain ⟨v, hv, rfl⟩ := Rule.keyword_ok h
      have hfree := hvalue _ _ (present_eq_ok hv)
      cases name with
      | none => exact ⟨trivial, hfree, trivial⟩
      | some name => exact ⟨trivial, trivial, hfree, trivial⟩
    | number offset x =>
      obtain ⟨s, -, rfl⟩ := Rule.number_ok h
      trivial
    | constant offset value =>
      rcases value with _ | _ | _ <;> cases h <;> trivial
    | forLoop offset target iter body orElse =>
      obtain ⟨htarget, hrest⟩ := List.forall_mem_cons.mp ih
      obtain ⟨hiter, hrest⟩ := List.forall_mem_cons.mp hrest
      obtain ⟨hbody, horElse⟩ := List.forall_mem_append.mp hrest
      obtain ⟨t, i, ds, es, ht, hi, hds, hes, rfl⟩ := Rule.forLoop_ok h
      have ht := htarget _ _ (present_eq_ok ht)
      have hi := hiter _ _ (present_eq_ok hi)
      have hblock := ifBreakFree_block (ifBreakFree_of_mem hbody hds)
      have helse := ifBreakFree_block (ifBreakFree_of_mem horElse hes)
      split
      · exact ⟨trivial, ht, trivial, hi, trivial, hblock, trivial⟩
      · exact ⟨trivial, ht, trivial, hi, trivial, hblock, trivial, trivial, helse, trivial⟩
    | tuple offset elts =>
      rw [children] at ih
      rcases Rule.tuple_ok h with rfl | ⟨ds, items, hds, hitems, rfl⟩
      · trivial
      · have hds := ifBreakFree_of_mem ih hds
        have hfree : items.IfBreakFree := by
          rcases hitems with rfl | ⟨item, hitem, rfl⟩
          · exact ifBreakFree_join hcomma hds
          · exact ⟨hds item hitem, trivial, trivial⟩
        split
        · exact ⟨trivial, hfree, trivial, trivial⟩
        · exact hfree
    | list offset elts =>
      rw [children] at ih
      obtain ⟨ds, hds, rfl⟩ := Rule.list_ok h
      exact ⟨trivial, ifBreakFree_join hcomma (ifBreakFree_of_mem ih hds), trivial, trivial⟩
    | assign offset targets value =>
      obtain ⟨hvalue, htargets⟩ := List.forall_mem_cons.mp ih
      obtain ⟨ts, v, hts, hv, rfl⟩ := Rule.assign_ok h
      have hv := hvalue _ _ (present_eq_ok hv)
      exact ⟨ifBreakFree_join hcomma (ifBreakFree_of_mem htargets hts), trivial, hv, trivial⟩
    | augAssign offset target op value =>
      obtain ⟨htarget, hrest⟩ := List.forall_mem_cons.mp ih
      obtain ⟨hop, hrest⟩ := List.forall_mem_cons.mp hrest
      have hvalue := List.forall_mem_singleton.mp hrest
      obtain ⟨t, o, v, ht, ho, hv, rfl⟩ := Rule.augAssign_ok h
      exact ⟨htarget _ _ (present_eq_ok ht), trivial, hop _ _ (present_eq_ok ho), trivial,
        hvalue _ _ (present_eq_ok hv), trivial⟩
    | dict offset keys values =>
      obtain ⟨hkeys, hvalues⟩ := List.forall_mem_append.mp ih
      obtain ⟨ks, vs, hks, hvs, rfl⟩ := Rule.dict_ok h
      have hks := ifBreakFree_of_mem hkeys hks
      have hvs := ifBreakFree_of_mem hvalues hvs
      have hpairs : ∀ d ∈ ks.zipWith (fun key value => concat [softline, key, text ": ", value]) vs,
          d.IfBreakFree := by
        intro d hd
        obtain ⟨k, hk, v, hv, rfl⟩ := exists_of_mem_zipWith hd
        exact ⟨trivial, hks k hk, trivial, hvs v hv, trivial⟩
      exact ⟨trivial, ifBreakFree_join trivial hpairs, trivial, trivial, trivial⟩
    | classDef offset name bases body =>
      obtain ⟨hbases, hbody⟩ := List.forall_mem_append.mp ih
      obtain ⟨bs, ds, hbs, hds, rfl⟩ := Rule.classDef_ok h
      have hblock := ifBreakFree_block (ifBreakFree_of_mem hbody hds)
      have hjoin : (join (text ",") bs).IfBreakFree :=
        ifBreakFree_join trivial (ifBreakFree_of_mem hbases hbs)
      split
      · exact ⟨trivial, trivial, trivial, hblock, trivial⟩
      · exact ⟨trivial, trivial, trivial, hjoin, trivial, trivial, hblock, trivial⟩
    | access offset value attr =>
      have hvalue := List.forall_mem_singleton.mp ih
      obtain ⟨v, hv, rfl⟩ := Rule.access_ok h
      exact ⟨hvalue _ _ (present_eq_ok hv), trivial, trivial, trivial⟩
    | compare offset left ops comparators =>
      obtain ⟨hleft, hrest⟩ := List.forall_mem_cons.mp ih
      obtain ⟨hops, hcomparators⟩ := List.forall_mem_append.mp hrest
      obtain ⟨l, os, cs, hl, hos, hcs, rfl⟩ := Rule.compare_ok h
      have hl := hleft _ _ (present_eq_ok hl)
      have hos := ifBreakFree_of_mem hops hos
      have hcs := ifBreakFree_of_mem hcomparators hcs
      have hpairs : ∀ d ∈ os.zipWith (fun op c => concat [text " ", op, text " ", c]) cs,
          d.IfBreakFree := by
        intro d hd
        obtain ⟨o, ho, c, hc, rfl⟩ := exists_of_mem_zipWith hd
        exact ⟨trivial, hos o ho, trivial, hcs c hc, trivial⟩
      exact ⟨hl, ifBreakFree_concat hpairs⟩
    | operator offset op =>
      obtain ⟨symbol, -, rfl⟩ := Rule.operator_ok h
      trivial
    | unsupported offset kind detail => cases h
    | plain value => cases h
    | _ =>
      cases h
      trivial

theorem ifBreakFree_of_print {n : Node} {d : Doc} (h : n.print = .ok d) : d.IfBreakFree :=
  n.ifBreakFree_of_printBelow [] d h

end Node

/-! ## two pages -/

theorem Doc.solid_render (o : Options) {d : Doc} (h : d.IfBreakFree) :
    solid (d.render o).toList = solid d.letters := by
  rw [render, String.toList_ofList]
  exact solid_layout o h

/-- a page shows the texts of a document in their order, with nothing but whitespace between and
inside them changed; so whatever is printed shows the same texts on every page -/
theorem solid_texts_of_page :
    (∀ d : Doc, d.IfBreakFree → ∀ o, solid (d.render o).toList = solid d.letters) ∧
    ∀ (n : Node) (d : Doc), n.print = .ok d →
      d.IfBreakFree ∧ ∀ o o', solid (d.render o).toList = solid (d.render o').toList := by
  constructor
  · intro d hd o
    exact Doc.solid_render o hd
  · intro n d hn
    have hd := Node.ifBreakFree_of_print hn
    refine ⟨hd, ?_⟩
    intro o o'
    rw [Doc.solid_render o hd, Doc.solid_render o' hd]

/-- a dictionary on a page that is too narrow for it, and on one that is not -/
theorem solid_texts_of_page_dict :
    ∃ d, (Node.dict 0 [.ident 1 "a"] [.ident 4 "b"]).print = .ok d ∧
      solid (d.render { printWidth := 3 }).toList = "\x7ba:b\x7d".toList ∧
      solid (d.render { printWidth := 3 }).toList = solid (d.render { endOfLine := .crlf }).toList := by
  have hprint : (Node.dict 0 [.ident 1 "a"] [.ident 4 "b"]).print = .ok _ := rfl
  obtain ⟨hfree, hpages⟩ := solid_texts_of_page.2 _ _ hprint
  exact ⟨_, hprint, solid_texts_of_page.1 _ hfree _, hpages _ _⟩

end Reflow
