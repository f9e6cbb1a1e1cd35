import Mathlib.Tactic.MkIffOfInductiveProp
import Reflow.Proofs.OneLine
import Reflow.Proofs.StructuralLayout

/-!
# Nodes inside a line

If there is no dictionary in an expression, there is no place in its document where a line may end.
So it has the same text on every page, and so have the fragments of a parameter list with such
defaults.

* `Segment`                    characters inside a line, of which the last one is no blank;
* `Doc.Inline`, `Doc.Worded`   documents of texts inside a line, and of segments;
* `Node.Inline`                a node that is printed inside a line if all nodes in it are;
* `Node.worded`                its document;
* `InlineParameters.fragments_ok`   the fragments of a parameter list of such nodes.
-/

namespace Reflow

open Source (isNameChar)

/-- characters inside a line, the last of which is no blank -/
@[mk_iff]
structure Segment (cs : List Char) : Prop where
  line : InLine cs
  last : ∃ c ∈ cs.getLast?, isBlank c = false

namespace Segment
variable {cs ds : List Char}

instance : Decidable (Segment cs) :=
  decidable_of_iff (InLine cs ∧ cs.getLast?.any (!isBlank ·) = true) <| by
    simp only [segment_iff, Option.any_eq_true, Option.mem_def, Bool.not_eq_true']

theorem append (hcs : InLine cs) (h : Segment ds) : Segment (cs ++ ds) := by
  obtain ⟨c, hc, hblank⟩ := h.last
  refine ⟨hcs.append h.line, c, ?_, hblank⟩
  rw [List.getLast?_append, hc]
  rfl

theorem of_solid (hne : cs ≠ []) (h : ∀ c ∈ cs, isLineEnd c = false ∧ isBlank c = false) :
    Segment cs :=
  ⟨fun c hc => (h c hc).1, cs.getLast hne, List.getLast?_eq_some_getLast hne,
    (h _ (List.getLast_mem hne)).2⟩

end Segment

theorem IsWord.segment {cs : List Char} (h : IsWord cs) : Segment cs :=
  .of_solid h.ne fun c hc => solid_of_isNameChar (h.chars c hc)

/-! ## documents -/

namespace Doc

/-- texts inside a line -/
structure Inline (d : Doc) : Prop where
  texts : d.TextOnly
  line : InLine d.flatText

/-- texts that make up a segment -/
structure Worded (d : Doc) : Prop where
  texts : d.TextOnly
  segment : Segment d.flatText

variable {d sep : Doc} {ds : List Doc}

theorem Worded.inline (h : d.Worded) : d.Inline := ⟨h.texts, h.segment.line⟩

theorem inline_text {s : String} (h : InLine s.toList) : (text s).Inline :=
  ⟨.text s, h⟩

theorem worded_text {s : String} (h : Segment s.toList) : (text s).Worded := ⟨.text s, h⟩

theorem inline_concat (h : ∀ d ∈ ds, d.Inline) : (concat ds).Inline where
  texts := .concat fun d hd => (h d hd).texts
  line := by
    rw [flatText, flatTexts_eq]
    intro c hc
    obtain ⟨d, hd, hc⟩ := List.mem_flatMap.mp hc
    exact (h d hd).line c hc

/-- only the last part has to end with something else than a blank -/
theorem worded_concat (h : ∀ d ∈ ds, d.Inline) (hd : d.Worded) : (concat (ds ++ [d])).Worded where
  texts := .concat (List.forall_mem_append.mpr
    ⟨fun d hd => (h d hd).texts, List.forall_mem_singleton.mpr hd.texts⟩)
  segment := by
    rw [flatText, flatTexts_eq, List.flatMap_append, List.flatMap_singleton]
    have hline := (inline_concat h).line
    rw [flatText, flatTexts_eq] at hline
    exact hd.segment.append hline

theorem worded_concat_all (hne : ds ≠ []) (h : ∀ d ∈ ds, d.Worded) : (concat ds).Worded := by
  obtain ⟨front, last, rfl⟩ := (List.eq_nil_or_concat' ds).resolve_left hne
  obtain ⟨hfront, hlast⟩ := List.forall_mem_append.mp h
  exact worded_concat (fun d hd => (hfront d hd).inline) (List.forall_mem_singleton.mp hlast)

theorem inline_join (hsep : sep.Inline) (h : ∀ d ∈ ds, d.Inline) : (join sep ds).Inline := by
  apply inline_concat
  intro d hd
  rcases mem_intersperse hd with rfl | hd
  · exact hsep
  · exact h d hd

theorem worded_join (hsep : sep.Inline) (hne : ds ≠ []) (h : ∀ d ∈ ds, d.Worded) :
    (join sep ds).Worded := by
  obtain ⟨front, last, rfl⟩ := (List.eq_nil_or_concat' ds).resolve_left hne
  obtain ⟨hfront, hlast⟩ := List.forall_mem_append.mp h
  have hlast := List.forall_mem_singleton.mp hlast
  rcases eq_or_ne front [] with rfl | hfrontne
  · exact worded_concat (List.forall_mem_nil _) hlast
  · have hbefore : ∀ d ∈ front.intersperse sep ++ [sep], d.Inline := by
      intro d hd
      rcases List.mem_append.mp hd with hd | hd
      · rcases mem_intersperse hd with rfl | hd
        · exact hsep
        · exact (hfront d hd).inline
      · rwa [List.mem_singleton.mp hd]
    have hworded := worded_concat hbefore hlast
    rw [List.append_assoc] at hworded
    rwa [join, intersperse_append hfrontne (List.cons_ne_nil last [])]

theorem inline_comma : (text ", ").Inline := inline_text (by decide)

end Doc

/-! ## nodes -/

theorem Operator.segment_symbol {op : Operator} {symbol : String} (h : op.symbol? = some symbol) :
    Segment symbol.toList := by
  cases op <;> cases h <;> decide

theorem Number.segment_text {n : Number} {t : String} (h : n.text? = some t) :
    Segment t.toList := by
  obtain ⟨hne, hchars⟩ := text?_chars h
  have hmarks : ∀ c ∈ numeralMarks ++ ['(', ')'], isLineEnd c = false ∧ isBlank c = false :=
    List.all_iff_forall_prop.mp (by decide)
  refine .of_solid hne fun c hc => ?_
  rcases hchars c hc with (hdigit | hmark) | hbracket
  · exact solid_of_isNameChar (by rw [isNameChar, hdigit, Bool.or_true])
  · exact hmarks c (List.mem_append_left _ hmark)
  · exact hmarks c (List.mem_append_right _ hbracket)

namespace Node
open Doc

/-- a node that is printed inside a line if all nodes in it are: no statement and no dictionary,
with names that are words and texts that end no line -/
def Inline : Node → Prop
  | .parameter _ name => IsWord name.toList
  | .ident _ id => IsWord id.toList
  | .keyword _ name _ => ∀ s ∈ name, IsWord s.toList
  | .access _ _ attr => IsWord attr.toList
  | .string _ s => InLine s.toList
  | .call .. | .number .. | .constant .. | .tuple .. | .list .. | .compare .. | .operator ..
  | .unsupported .. | .plain _ => True
  | .module .. | .function .. | .parameters .. | .expression .. | .forLoop .. | .assign ..
  | .augAssign .. | .dict .. | .classDef .. => False

section
variable {owner : Node} {above : List Node} {field : String} {ns : List Node} {ds : List Doc}

theorem worded_of_mem (ih : ∀ n ∈ ns, ∀ above d, n.printBelow above = .ok d → d.Worded)
    (h : printAllBelow above owner field ns = ds.map .ok) : ∀ d ∈ ds, d.Worded := by
  intro d hd
  obtain ⟨n, hn, hd⟩ := exists_of_mem h hd
  exact ih n hn (owner :: above) d hd

end

/-- parts between brackets -/
theorem worded_bracketed {before after : String} {d : Doc} (hbefore : (text before).Inline)
    (hafter : (text after).Worded) (h : d.Inline) : (concat [text before, d, text after]).Worded :=
  worded_concat (List.forall_mem_cons.mpr ⟨hbefore, List.forall_mem_singleton.mpr h⟩) hafter

theorem worded_items {ds : List Doc} (hne : ds ≠ []) (h : ∀ d ∈ ds, d.Worded) :
    (Rule.itemsDoc ds).Worded := by
  match ds, hne with
  | [item], _ =>
    exact worded_concat (List.forall_mem_singleton.mpr (List.forall_mem_singleton.mp h).inline)
      (worded_text (by decide))
  | d :: e :: ds, _ => exact worded_join inline_comma (List.cons_ne_nil _ _) h

theorem worded (n : Node) : (∀ m ∈ n.nodes, m.Inline) → ∀ above d, n.printBelow above = .ok d →
    d.Worded := by
  induction n using induct_children with
  | step n ih =>
    intro h above d hd
    obtain ⟨hn, hnodes⟩ := forall_nodes.mp h
    have hchild : ∀ m ∈ n.children, ∀ above e, m.printBelow above = .ok e → e.Worded :=
      fun m hm => ih m hm (hnodes m hm)
    cases n with
    | parameter offset name =>
      cases hd
      exact worded_text hn.segment
    | ident offset id =>
      cases hd
      exact worded_text hn.segment
    | string offset s =>
      cases hd
      refine worded_text ?_
      rw [String.toList_append, String.toList_append]
      have hopen : InLine "\"".toList := by decide
      exact .append (hopen.append hn) (by decide)
    | number offset n =>
      obtain ⟨s, hs, rfl⟩ := Rule.number_ok hd
      exact worded_text (Number.segment_text hs)
    | constant offset value =>
      rcases value with _ | _ | _ <;> cases hd <;> exact worded_text (by decide)
    | operator offset op =>
      obtain ⟨symbol, hsymbol, rfl⟩ := Rule.operator_ok hd
      exact worded_text (Operator.segment_symbol hsymbol)
    | call offset callee args keywords =>
      obtain ⟨place, id, as, ks, rfl, has, hks, rfl⟩ := Rule.call_ok hd
      obtain ⟨hcallee, hrest⟩ := List.forall_mem_cons.mp hchild
      obtain ⟨hargs, hkeywords⟩ := List.forall_mem_append.mp hrest
      have hall : ∀ d ∈ as ++ ks, d.Worded :=
        List.forall_mem_append.mpr ⟨worded_of_mem hargs has, worded_of_mem hkeywords hks⟩
      have hjoin := inline_join inline_comma fun d hd => (hall d hd).inline
      have hid : (text id).Worded := hcallee [] _ rfl
      have hbefore : ∀ d ∈ [text id, text "(", join (text ", ") (as ++ ks)], d.Inline :=
        List.forall_mem_cons.mpr ⟨hid.inline, List.forall_mem_cons.mpr
          ⟨inline_text (by decide), List.forall_mem_singleton.mpr hjoin⟩⟩
      exact worded_concat hbefore (worded_text (by decide))
    | keyword offset name value =>
      obtain ⟨v, hv, rfl⟩ := Rule.keyword_ok hd
      have hvalue := List.forall_mem_singleton.mp hchild _ v (present_eq_ok hv)
      refine worded_concat ?_ hvalue
      cases name with
      | none => exact List.forall_mem_singleton.mpr (inline_text (by decide))
      | some name =>
        have hname : (text name).Worded := worded_text (hn name rfl).segment
        exact List.forall_mem_cons.mpr
          ⟨hname.inline, List.forall_mem_singleton.mpr (inline_text (by decide))⟩
    | tuple offset elts =>
      cases elts with
      | nil =>
        cases hd
        exact worded_text (by decide)
      | cons elt elts =>
        obtain ⟨ds, hds, rfl⟩ := Rule.tuple_cons_ok (List.cons_ne_nil _ _) hd
        have hne : ds ≠ [] := by
          rintro rfl
          cases hds
        have hitems := worded_items hne (worded_of_mem hchild hds)
        split
        · exact worded_bracketed (inline_text (by decide)) (worded_text (by decide))
            hitems.inline
        · exact hitems
    | list offset elts =>
      obtain ⟨ds, hds, rfl⟩ := Rule.list_ok hd
      have hjoin := inline_join inline_comma fun d hd => (worded_of_mem hchild hds d hd).inline
      exact worded_bracketed (inline_text (by decide)) (worded_text (by decide)) hjoin
    | access offset value attr =>
      obtain ⟨v, hv, rfl⟩ := Rule.access_ok hd
      have hvalue := List.forall_mem_singleton.mp hchild _ v (present_eq_ok hv)
      have hbefore : ∀ d ∈ [v, text "."], d.Inline := List.forall_mem_cons.mpr
        ⟨hvalue.inline, List.forall_mem_singleton.mpr (inline_text (by decide))⟩
      exact worded_concat hbefore (worded_text hn.segment)
    | compare offset left ops comparators =>
      obtain ⟨l, os, cs, hl, hos, hcs, rfl⟩ := Rule.compare_ok hd
      obtain ⟨hleft, hrest⟩ := List.forall_mem_cons.mp hchild
      obtain ⟨hops, hcomparators⟩ := List.forall_mem_append.mp hrest
      refine worded_concat_all (List.cons_ne_nil _ _)
        (List.forall_mem_cons.mpr ⟨hleft _ l (present_eq_ok hl), ?_⟩)
      intro d hd
      obtain ⟨o, ho, c, hc, rfl⟩ := exists_of_mem_zipWith hd
      have hop := worded_of_mem hops hos o ho
      have hbefore : ∀ d ∈ [text " ", o, text " "], d.Inline := List.forall_mem_cons.mpr
        ⟨inline_text (by decide), List.forall_mem_cons.mpr
          ⟨hop.inline, List.forall_mem_singleton.mpr (inline_text (by decide))⟩⟩
      exact worded_concat hbefore (worded_of_mem hcomparators hcs c hc)
    | unsupported => cases hd
    | plain => cases hd
    | _ => exact hn.elim

/-! ## parameter lists -/

/-- a parameter list in which all nodes are printed inside a line -/
def InlineParameters : Node → Prop
  | n@(.parameters ..) => ∀ c ∈ n.children, ∀ m ∈ c.nodes, m.Inline
  | _ => False

theorem InlineParameters.fragments_ok {n : Node} (h : n.InlineParameters) {above : List Node}
    {d : Doc} (hd : n.printBelow above = .ok d) :
    ∃ es, n.fragments = .ok es ∧ d = join (concat [text ", ", softline]) es ∧
      ∀ e ∈ es, e.Worded := by
  cases n with
  | parameters offset posOnly params defaults vararg kwOnly kwDefaults kwarg =>
    obtain ⟨es, hes, rfl⟩ := printBelow_parameters hd
    refine ⟨es, hes, rfl, ?_⟩
    intro e he
    rcases mem_fragments (fun m hm => m.worded (h m hm)) hes e he with
      rfl | rfl | ⟨p, hp, rfl | rfl | rfl⟩ | ⟨p, v, hp, hv, rfl⟩
    · exact worded_text (by decide)
    · exact worded_text (by decide)
    · exact worded_concat (List.forall_mem_nil _) hp
    · exact worded_concat (List.forall_mem_singleton.mpr (inline_text (by decide))) hp
    · exact worded_concat (List.forall_mem_singleton.mpr (inline_text (by decide))) hp
    · exact worded_concat (List.forall_mem_cons.mpr
        ⟨hp.inline, List.forall_mem_singleton.mpr (inline_text (by decide))⟩) hv
  | _ => exact h.elim

end Node

end Reflow
