import Reflow.Proofs.StructuralLayout

/-!
# Statements in blocks

A statement stands among others in the block of a module, or of a function, a class or a loop that
itself stands in a block.  It is printed as if it were alone.  On every page it begins on a line of
its own, behind the indentation of its depth, and what is printed before it does not depend on it.

* `Owner`, `Block`        a statement around a block, and a place for a statement in a block;
* `Block.print_fill`      the document of a tree with a statement in such a place;
* `Pen.AtMargin`          the start of a line, behind an indentation;
* `Block.lay_around`      the layout of such a document.
-/

namespace Reflow

open Doc

namespace Node

/-- the document of a node by itself -/
def doc (n : Node) : Doc := n.print.toOption.getD (text "")

theorem doc_of_print {n : Node} {d : Doc} (h : n.print = .ok d) :
    n.print = .ok n.doc ∧ d = n.doc := by
  have hdoc : n.doc = d := by rw [doc, h]; rfl
  exact ⟨hdoc ▸ h, hdoc.symm⟩

section
variable {owner : Node} (hs : owner.isSequence = false)
include hs

theorem doc_of_printBelow {n : Node} {d : Doc} (h : n.printBelow [owner] = .ok d) :
    n.print = .ok n.doc ∧ d = n.doc := by
  have howner : inSequence [owner] = inSequence [] := hs
  rw [n.printBelow_congr _ _ fun _ => howner] at h
  exact doc_of_print h

theorem docs_of_printAllBelow {field : String} {ns : List Node} {ds : List Doc}
    (h : printAllBelow [] owner field ns = ds.map .ok) :
    (∀ n ∈ ns, n.print = .ok n.doc) ∧ ds = ns.map doc := by
  have hdocs := printAllBelow_ok h
  clear h
  induction hdocs with
  | nil => exact ⟨List.forall_mem_nil _, rfl⟩
  | cons hd _ ih =>
    obtain ⟨hn, rfl⟩ := doc_of_printBelow hs hd
    obtain ⟨hns, rfl⟩ := ih
    exact ⟨List.forall_mem_cons.mpr ⟨hn, hns⟩, rfl⟩

end

end Node

/-! ## blocks -/

/-- a statement around a block, without the block -/
inductive Owner where
  | function (offset : Int) (name : String) (params : Node)
  | classDef (offset : Int) (name : String) (bases : List Node)
  | loop (offset : Int) (target iter : Node) (orElse : List Node)
  /-- a loop, around the block behind its `else` -/
  | loopElse (offset : Int) (target iter : Node) (body : List Node)

namespace Owner

def node : Owner → List Node → Node
  | .function offset name params, block => .function offset name params block
  | .classDef offset name bases, block => .classDef offset name bases block
  | .loop offset target iter orElse, block => .forLoop offset target iter block orElse
  | .loopElse offset target iter body, block => .forLoop offset target iter body block

/-- the parts of its document before the block -/
def front : Owner → List Doc
  | .function _ name params => [text "def ", text name,
      group (concat [text "(", indent (concat [softline, params.doc]), softline, text ")"]) false,
      text ":"]
  | .classDef _ name bases => [text "class ", text name] ++
      (if bases.isEmpty then [] else [text "(", join (text ",") (bases.map Node.doc), text ")"]) ++
      [text ":"]
  | .loop _ target iter _ => [text "for ", target.doc, text " in ", iter.doc, text ":"]
  | .loopElse _ target iter body => [text "for ", target.doc, text " in ", iter.doc, text ":",
      Rule.blockDoc (body.map Node.doc), line, text "else:"]

/-- the parts of its document behind the block -/
def back : Owner → List Doc
  | .loop _ _ _ orElse =>
    if orElse.isEmpty then [] else [line, text "else:", Rule.blockDoc (orElse.map Node.doc)]
  | _ => []

def doc (owner : Owner) (block : List Doc) : Doc :=
  concat (owner.front ++ Rule.blockDoc block :: owner.back)

theorem print_node {owner : Owner} {block : List Node} (hne : block ≠ []) {d : Doc}
    (h : (owner.node block).print = .ok d) :
    (∀ n ∈ block, n.print = .ok n.doc) ∧ d = owner.doc (block.map Node.doc) := by
  cases owner with
  | function offset name params =>
    obtain ⟨p, ds, hp, hds, rfl⟩ := Rule.function_ok h
    obtain ⟨-, rfl⟩ := Node.doc_of_printBelow rfl (Node.present_eq_ok hp)
    obtain ⟨hblock, rfl⟩ := Node.docs_of_printAllBelow rfl hds
    exact ⟨hblock, rfl⟩
  | classDef offset name bases =>
    obtain ⟨bs, ds, hbs, hds, rfl⟩ := Rule.classDef_ok h
    obtain ⟨-, rfl⟩ := Node.docs_of_printAllBelow rfl hbs
    obtain ⟨hblock, rfl⟩ := Node.docs_of_printAllBelow rfl hds
    refine ⟨hblock, ?_⟩
    rw [List.isEmpty_map, doc, front, List.append_assoc _ [text ":"]]
    rfl
  | loop offset target iter orElse =>
    obtain ⟨t, i, ds, es, ht, hi, hds, hes, rfl⟩ := Rule.forLoop_ok h
    obtain ⟨-, rfl⟩ := Node.doc_of_printBelow rfl (Node.present_eq_ok ht)
    obtain ⟨-, rfl⟩ := Node.doc_of_printBelow rfl (Node.present_eq_ok hi)
    obtain ⟨hblock, rfl⟩ := Node.docs_of_printAllBelow rfl hds
    obtain ⟨-, rfl⟩ := Node.docs_of_printAllBelow rfl hes
    refine ⟨hblock, ?_⟩
    rw [doc, front, back, List.isEmpty_map]
    rfl
  | loopElse offset target iter body =>
    obtain ⟨t, i, ds, es, ht, hi, hds, hes, rfl⟩ := Rule.forLoop_ok h
    obtain ⟨-, rfl⟩ := Node.doc_of_printBelow rfl (Node.present_eq_ok ht)
    obtain ⟨-, rfl⟩ := Node.doc_of_printBelow rfl (Node.present_eq_ok hi)
    obtain ⟨-, rfl⟩ := Node.docs_of_printAllBelow rfl hds
    obtain ⟨hblock, rfl⟩ := Node.docs_of_printAllBelow rfl hes
    refine ⟨hblock, ?_⟩
    rw [List.isEmpty_map, if_neg (List.isEmpty_iff.not.mpr hne)]
    rfl

end Owner

/-- a place for a statement, among the others in a block -/
inductive Block where
  | module (offset : Int) (before after : List Node)
  | inside (outer : Block) (owner : Owner) (before after : List Node)

namespace Block

def depth : Block → Nat
  | .module _ _ _ => 0
  | .inside outer _ _ _ => outer.depth + 1

/-- the whole tree, with a statement in its place -/
def fill : Block → Node → Node
  | .module offset before after, n => .module offset (before ++ n :: after)
  | .inside outer owner before after, n => outer.fill (owner.node (before ++ n :: after))

/-- the document of the whole tree -/
def around : Block → Doc → Doc
  | .module _ before after, d =>
    Rule.moduleDoc (before.map Node.doc ++ d :: after.map Node.doc)
  | .inside outer owner before after, d =>
    outer.around (owner.doc (before.map Node.doc ++ d :: after.map Node.doc))

theorem print_fill (B : Block) {n : Node} {d : Doc} (h : (B.fill n).print = .ok d) :
    n.print = .ok n.doc ∧ d = B.around n.doc := by
  induction B generalizing n d with
  | module offset before after =>
    have hne : before ++ n :: after ≠ [] := by simp
    obtain ⟨ds, hds, rfl⟩ := (Node.print_module hne).mp h
    obtain ⟨hns, rfl⟩ := Node.docs_of_printAllBelow rfl hds
    exact ⟨hns n (by simp), by rw [around, List.map_append, List.map_cons]⟩
  | inside outer owner before after ih =>
    have hne : before ++ n :: after ≠ [] := by simp
    obtain ⟨howner, rfl⟩ := ih h
    obtain ⟨hns, hdoc⟩ := Owner.print_node hne howner
    exact ⟨hns n (by simp), by rw [around, hdoc, List.map_append, List.map_cons]⟩

end Block

/-! ## margins -/

/-- the start of a line behind an indentation, with the text above it -/
structure Pen.AtMargin (o : Options) (level : Nat) (above : List Char) (p : Pen) : Prop where
  written : p.written = List.replicate (level * o.tabWidth) ' ' ++ above.reverse
  column : p.column = level * o.tabWidth
  ends : above = [] ∨ o.endOfLine.newline <:+ above

namespace Pen
variable (o : Options)

theorem atMargin_start : AtMargin o 0 [] {} where
  written := by rw [Nat.zero_mul]; rfl
  column := (Nat.zero_mul _).symm
  ends := .inl rfl

theorem atMargin_breakLine (level : Nat) (p : Pen) :
    ∃ above, AtMargin o level above (p.breakLine o level) := by
  refine ⟨(Page.trimmed p.written).reverse ++ o.endOfLine.newline, ?_, rfl,
    .inr (List.suffix_append _ _)⟩
  rw [List.reverse_append, List.reverse_reverse]
  rfl

/-- nothing of what is written is changed, but for blanks at its end -/
def Keeps (F : Pen → Pen) : Prop :=
  ∀ (text : List Char) (p : Pen), Page.trimmed text = text → text <:+ p.written →
    text <:+ (F p).written

theorem keeps_layAll (ds : List Doc) (level : Nat) (mode : Mode) (after : Nat) :
    Keeps (layAll o ds level mode after) :=
  fun _ _ htext h => layAll_suffix htext ds level mode after h

theorem Keeps.comp {F G : Pen → Pen} (hF : Keeps F) (hG : Keeps G) : Keeps (F ∘ G) :=
  fun text p htext h => hF text (G p) htext (hG text p htext h)

end Pen

namespace Doc

/-- a document that ends a line and says nothing about what is behind it -/
structure Separates (sep : Doc) : Prop where
  span : ∀ after, sep.span .broken after = 0
  lay : ∃ f : Options → Nat → Pen → Pen, ∀ o level after p,
    sep.lay o level .broken after p = (f o level p).breakLine o level

theorem separates_hardline : Separates hardline.propagateBreaks :=
  ⟨fun _ => rfl, fun _ _ p => p, fun _ _ _ _ => rfl⟩

theorem separates_hardlines : Separates (concat [hardline, hardline]).propagateBreaks :=
  ⟨fun _ => rfl, fun o level p => p.breakLine o level, fun _ _ _ _ => rfl⟩

/-- among others that are separated by line ends, a document begins at a margin -/
theorem lay_among {sep : Doc} (hsep : sep.propagateBreaks.Separates) (o : Options) (level : Nat)
    (ds es : List Doc) {p : Pen} (hp : ∃ above, p.AtMargin o level above) :
    ∃ (q : Pen) (F : Pen → Pen), (∃ above, q.AtMargin o level above) ∧ Pen.Keeps F ∧ ∀ d : Doc,
      layAll o (((ds ++ d :: es).intersperse sep).map propagateBreaks) level .broken 0 p =
        F (d.propagateBreaks.lay o level .broken 0 q) := by
  let rest := (es.flatMap fun e => [sep, e]).map propagateBreaks
  have hspan : spanAll rest .broken 0 = 0 := by
    cases es with
    | nil => rfl
    | cons e es => exact hsep.span _
  have hbegin (d : Doc) (q : Pen) :
      layAll o (((d :: es).intersperse sep).map propagateBreaks) level .broken 0 q =
        layAll o rest level .broken 0 (d.propagateBreaks.lay o level .broken 0 q) := by
    rw [intersperse_cons, List.map_cons, layAll, hspan]
  rcases eq_or_ne ds [] with rfl | hds
  · exact ⟨p, _, hp, Pen.keeps_layAll o rest level .broken 0, fun d => hbegin d p⟩
  · obtain ⟨f, hf⟩ := hsep.lay
    let q := f o level (layAll o ((ds.intersperse sep).map propagateBreaks) level .broken 0 p)
    refine ⟨q.breakLine o level, _, Pen.atMargin_breakLine o level q,
      Pen.keeps_layAll o rest level .broken 0, ?_⟩
    intro d
    rw [intersperse_append hds (List.cons_ne_nil d es), List.map_append, List.map_cons,
      layAll_append, spanAll, hsep.span, layAll, hf, hbegin]

theorem span_blockDoc (ds : List Doc) (after : Nat) :
    (Rule.blockDoc ds).propagateBreaks.span .broken after = 0 := rfl

theorem lay_blockDoc (o : Options) (ds : List Doc) (level after : Nat) (p : Pen) :
    (Rule.blockDoc ds).propagateBreaks.lay o level .broken after p =
      layAll o ((ds.intersperse hardline).map propagateBreaks) (level + 1) .broken after
        (p.breakLine o (level + 1)) := by
  have hjoin : (Rule.blockDoc ds).propagateBreaks =
      indent (concat [line, concat ((ds.intersperse hardline).map propagateBreaks)]) := by
    rw [← propagateBreaks_concat]
    rfl
  rw [hjoin]
  rfl

end Doc

theorem Owner.span_back (owner : Owner) :
    spanAll (owner.back.map propagateBreaks) .broken 0 = 0 := by
  cases owner with
  | loop offset target iter orElse =>
    rw [back]
    split <;> rfl
  | _ => rfl

theorem Owner.lay_doc (owner : Owner) (o : Options) (level : Nat) (ds es : List Doc) (p : Pen) :
    ∃ (q : Pen) (F : Pen → Pen), (∃ above, q.AtMargin o (level + 1) above) ∧ Pen.Keeps F ∧
      ∀ d : Doc, (owner.doc (ds ++ d :: es)).propagateBreaks.lay o level .broken 0 p =
        F (d.propagateBreaks.lay o (level + 1) .broken 0 q) := by
  let before := layAll o (owner.front.map propagateBreaks) level .broken 0 p
  let start := before.breakLine o (level + 1)
  obtain ⟨q, F, hq, hF, hlay⟩ := lay_among separates_hardline o (level + 1) ds es
    (Pen.atMargin_breakLine o (level + 1) _ : ∃ above, start.AtMargin o (level + 1) above)
  refine ⟨q, _, hq,
    (Pen.keeps_layAll o (owner.back.map propagateBreaks) level .broken 0).comp hF, ?_⟩
  intro d
  rw [doc, propagateBreaks_concat, Doc.lay, List.map_append, List.map_cons, layAll_append, spanAll,
    span_blockDoc, layAll, owner.span_back, lay_blockDoc, hlay]
  rfl

/-- **A statement in a block.**  It begins at the margin of its depth, where nothing depends on it
so far, and nothing that comes later changes what it has written. -/
theorem Block.lay_around (o : Options) (B : Block) :
    ∃ (q : Pen) (F : Pen → Pen), (∃ above, q.AtMargin o B.depth above) ∧ Pen.Keeps F ∧ ∀ d : Doc,
      (B.around d).propagateBreaks.lay o 0 .broken 0 {} =
        F (d.propagateBreaks.lay o B.depth .broken 0 q) := by
  induction B with
  | module offset before after =>
    obtain ⟨q, F, hq, hF, hlay⟩ := lay_among separates_hardlines o 0 (before.map Node.doc)
      (after.map Node.doc) ⟨[], Pen.atMargin_start o⟩
    refine ⟨q, _, hq, (Pen.keeps_layAll o [hardline.propagateBreaks] 0 .broken 0).comp hF, ?_⟩
    intro d
    rw [around, Rule.moduleDoc, propagateBreaks_concat, Doc.lay, List.map_cons, layAll, join,
      propagateBreaks_concat, Doc.lay]
    show layAll o [hardline.propagateBreaks] 0 .broken 0 (layAll o _ 0 .broken 0 {}) = _
    rw [hlay]
    rfl
  | inside outer owner before after ih =>
    obtain ⟨p, F, -, hF, hlay⟩ := ih
    obtain ⟨q, G, hq, hG, howner⟩ := owner.lay_doc o outer.depth (before.map Node.doc)
      (after.map Node.doc) p
    refine ⟨q, _, hq, hF.comp hG, ?_⟩
    intro d
    rw [around, hlay, howner]
    rfl

end Reflow
