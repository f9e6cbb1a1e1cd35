import Reflow.Proofs.Legible
import Reflow.Proofs.Reading

/-!
# Expressions that can be told apart

Where no part of a term would need brackets, its text tells the tree, but for the offsets.  Two
texts are compared from left to right, with what follows them: a part of a term ends where no more
of it can follow.

* `Opening`                what a part begins with;
* `ItemEnd`, `OperandEnd`  what may follow a part: after a comma neither a member nor an operator;
* `Reads`                  a text that begins with a node begins with no other one;
* `Readable`               so it is for the stem, the items and the whole of all legible terms;
* `Term.erase_of_render`   two such terms that are rendered alike are the same but for the offsets;
* `render_lookalikes`      and each place for brackets has a pair of terms with one text.
-/

namespace Reflow.Node

open Source (isNameStart isNameChar)

/-! ## what a text begins with -/

/-- what may follow an item -/
def itemEnds : List Char := [',', ')', ']', '\x7d', ':']

/-- what may follow an operand: a space comes before an operator -/
def operandEnds : List Char := ' ' :: itemEnds

/-- what may follow an atom: a dot comes before a member -/
def atomEnds : List Char := '.' :: operandEnds

/-- what follows a word is no part of it -/
theorem not_name_of_ends {cs : List Char} (h : Ends atomEnds cs) :
    ∀ c ∈ cs.head?, isNameChar c = false := by
  intro c hc
  have hsub : atomEnds ⊆ separators := by decide
  exact separator_of_mem (hsub (h c hc))

theorem not_mem_atomEnds {c : Char} (h : c ∈ brackets) : c ∉ atomEnds := by
  have hall : ∀ c ∈ brackets, c ∉ atomEnds := List.all_iff_forall_prop.mp (by decide)
  exact hall c h

/-- a text that begins with a word or a bracket, a word not being a label -/
def Opening (cs : List Char) : Prop :=
  ∃ w more, cs = w ++ more ∧ (∀ c ∈ w, isNameChar c = true) ∧ Ends (brackets ++ atomEnds) more ∧
    (w = [] → ∃ c ∈ more.head?, c ∈ brackets)

namespace Opening
variable {cs : List Char}

theorem append {r : List Char} (h : Opening cs) (hr : Ends atomEnds r) : Opening (cs ++ r) := by
  obtain ⟨w, more, rfl, hw, hmore, hfirst⟩ := h
  refine ⟨w, more ++ r, List.append_assoc _ _ _, hw,
    hmore.append (hr.mono (List.subset_append_right _ _)), fun hnil => ?_⟩
  obtain ⟨c, hc, hbracket⟩ := hfirst hnil
  exact ⟨c, by rw [List.head?_append, hc]; rfl, hbracket⟩

theorem not_ends (h : Opening cs) : ¬ Ends atomEnds cs := by
  obtain ⟨w, more, rfl, hw, -, hfirst⟩ := h
  intro hends
  cases w with
  | nil =>
    obtain ⟨c, hc, hbracket⟩ := hfirst rfl
    exact not_mem_atomEnds hbracket (hends c hc)
  | cons c w =>
    have hname : isNameChar c = true := hw c List.mem_cons_self
    rw [not_name_of_ends hends c rfl] at hname
    cases hname

theorem head (h : Opening cs) (r : List Char) :
    ∃ c s, cs ++ r = c :: s ∧ (isNameChar c = true ∨ c ∈ brackets) := by
  obtain ⟨w, more, rfl, hw, -, hfirst⟩ := h
  cases w with
  | nil =>
    obtain ⟨c, hc, hbracket⟩ := hfirst rfl
    obtain ⟨s, rfl⟩ := List.head?_eq_some_iff.mp hc
    exact ⟨c, s ++ r, rfl, .inr hbracket⟩
  | cons c w => exact ⟨c, w ++ more ++ r, by simp, .inl (hw c List.mem_cons_self)⟩

/-- a term does not begin as an argument by name does -/
theorem ne_label (h : Opening cs) {name : Option String} (hname : ∀ s ∈ name, IsName s)
    (r : List Char) : cs ≠ label name ++ r := by
  obtain ⟨w, more, rfl, hw, hmore, hfirst⟩ := h
  intro heq
  cases name with
  | none =>
    cases w with
    | nil =>
      obtain ⟨c, hc, hbracket⟩ := hfirst rfl
      rw [List.nil_append] at heq
      rw [heq] at hc
      cases hc
      exact absurd hbracket (by decide)
    | cons c w =>
      obtain ⟨rfl, -⟩ := List.cons.inj heq
      have hstar := hw _ List.mem_cons_self
      exact absurd hstar (by decide)
  | some s =>
    have hstop : ∀ c ∈ more.head?, isNameChar c = false := by
      intro c hc
      have hsub : brackets ++ atomEnds ⊆ separators := by decide
      exact separator_of_mem (hsub (hmore c hc))
    rw [label, List.append_assoc] at heq
    have hequals : ∀ c ∈ (['='] ++ r).head?, isNameChar c = false := by
      rintro _ ⟨⟩
      decide
    obtain ⟨-, rfl⟩ := split_inj hw (hname s rfl).chars hstop hequals heq
    exact absurd (hmore '=' rfl) (by decide)

end Opening

theorem Atom.opening {n : Node} {w body : List Char} (h : Atom n w body) :
    Opening (n.oneLine true) := by
  obtain ⟨hw, hbody, hne⟩ := h.chars
  refine ⟨w, body, h.text, hw, fun c hc => List.mem_append_left _ (hbody c hc), fun hnil => ?_⟩
  obtain ⟨c, hc⟩ := Option.isSome_iff_exists.mp (List.isSome_head?.mpr (hne hnil))
  exact ⟨c, hc, hbody c hc⟩

/-- a member begins with its dot, or with the comma before it -/
theorem Member.ends (m : Member) (r : List Char) : Ends atomEnds (m.text ++ r) := by
  obtain ⟨single, attr⟩ := m
  cases single
  · exact Ends.cons (c := '.') (by decide)
  · exact Ends.cons (c := ',') (by decide)

/-- a link begins with the space before its operator, or with the comma before that -/
theorem Link.ends (link : Link) (r : List Char) : Ends operandEnds (link.text ++ r) := by
  obtain ⟨single, op, operand⟩ := link
  cases single
  · exact Ends.cons (c := ' ') (by decide)
  · exact Ends.cons (c := ',') (by decide)

theorem ends_members (members : List Member) : Ends atomEnds (members.flatMap Member.text) :=
  Ends.flatMap fun m _ => (m.ends []).of_append

theorem ends_links (links : List Link) : Ends operandEnds (links.flatMap Link.text) :=
  Ends.flatMap fun link _ => (link.ends []).of_append

theorem ends_comma (single : Bool) : Ends itemEnds (comma single) := by
  rcases comma_cases single with hcomma | hcomma <;> rw [hcomma]
  · exact Ends.nil
  · exact Ends.cons (by decide)

theorem Operand.opening {n : Node} (h : Operand n) : Opening (n.oneLine true) := by
  obtain ⟨w, body, hatom⟩ := h.stem_atom
  rw [h.oneLine_stem]
  exact hatom.opening.append (ends_members n.members)

theorem Legible.opening {n : Node} (h : Legible n) (b : Bool) : Opening (n.oneLine b) := by
  have hitem {m : Node} (hm : Legible m) : Opening (m.oneLine true) := by
    rw [hm.oneLine_links]
    exact hm.links.1.opening.append ((ends_links m.links).mono (List.subset_cons_self _ _))
  cases b with
  | true => exact hitem h
  | false =>
    obtain ⟨m, ms, hrow⟩ := List.exists_cons_of_ne_nil n.row_ne_nil
    have hm : Legible m := h.row m (hrow ▸ List.mem_cons_self)
    have hcomma : Ends atomEnds (comma n.isSingle) := (ends_comma n.isSingle).mono (by decide)
    rw [oneLine_row, hrow, List.map_cons, commas, intercalate_cons, List.append_assoc]
    exact (hitem hm).append ((Ends.flatMap fun _ _ => Ends.cons (by decide)).append hcomma)

/-! ## what may follow a part -/

/-- what a comparison begins with -/
def comparisonMarks : List Char := ['<', '>', '=', '!']

/-- that no operator comes next -/
def Unmarked (cs : List Char) : Prop := ∀ c ∈ cs.head?, c ∉ comparisonMarks

/-- that a text goes on after a comma with neither a member nor an operator -/
structure Resumes (cs : List Char) : Prop where
  member : cs.head? ≠ some '.'
  operator : ∀ t, cs = ' ' :: t → Unmarked t

/-- what may follow an operand -/
structure OperandEnd (r : List Char) : Prop where
  ends : Ends operandEnds r
  member : ∀ t, r = ',' :: t → t.head? ≠ some '.'

/-- what may follow an item -/
structure ItemEnd (r : List Char) : Prop where
  ends : Ends itemEnds r
  resumes : ∀ t, r = ',' :: t → Resumes t

theorem ItemEnd.operand {r : List Char} (h : ItemEnd r) : OperandEnd r :=
  ⟨h.ends.mono (List.subset_cons_self _ _), fun t ht => (h.resumes t ht).member⟩

theorem Opening.unmarked {cs : List Char} (h : Opening cs) (r : List Char) : Unmarked (cs ++ r) := by
  obtain ⟨c, s, heq, hc⟩ := h.head r
  have hall : ∀ c ∈ comparisonMarks, ¬ (isNameChar c = true ∨ c ∈ brackets) :=
    List.all_iff_forall_prop.mp (by decide)
  rw [heq]
  rintro _ ⟨⟩ hmark
  exact hall c hmark hc

theorem Opening.resumes {cs : List Char} (h : Opening cs) (r : List Char) : Resumes (cs ++ r) := by
  obtain ⟨c, s, heq, hc⟩ := h.head r
  rw [heq]
  constructor
  · rintro ⟨⟩
    exact absurd hc (by decide)
  · rintro _ ⟨⟩
    exact absurd hc (by decide)

/-- a space and then no operator -/
theorem Resumes.space {cs : List Char} (h : Unmarked cs) : Resumes (' ' :: cs) := by
  refine ⟨by rintro ⟨⟩, ?_⟩
  rintro _ ⟨⟩
  exact h

theorem Resumes.of_ends {cs : List Char} (h : Ends itemEnds cs) : Resumes cs := by
  constructor
  · intro hdot
    exact absurd (h '.' hdot) (by decide)
  · rintro t rfl
    exact absurd (h ' ' rfl) (by decide)

theorem ItemEnd.of_mark {c : Char} {r : List Char} (hc : c ∈ itemEnds) (hne : c ≠ ',') :
    ItemEnd (c :: r) :=
  ⟨Ends.cons hc, fun _ heq => absurd (List.cons.inj heq).1 hne⟩

theorem ItemEnd.of_comma {r : List Char} (h : Resumes r) : ItemEnd (',' :: r) := by
  refine ⟨Ends.cons (by decide), ?_⟩
  rintro _ ⟨⟩
  exact h

theorem ItemEnd.nil : ItemEnd [] := ⟨Ends.nil, fun _ heq => by cases heq⟩

theorem Link.operandEnd (link : Link) (r : List Char) : OperandEnd (link.text ++ r) := by
  refine ⟨link.ends r, ?_⟩
  obtain ⟨single, op, operand⟩ := link
  cases single
  · intro t heq
    exact absurd (List.cons.inj heq).1 (by decide)
  · rintro _ ⟨⟩ ⟨⟩

theorem OperandEnd.links {links : List Link} {r : List Char} (hr : OperandEnd r) :
    OperandEnd (links.flatMap Link.text ++ r) := by
  cases links with
  | nil => exact hr
  | cons link links =>
    rw [List.flatMap_cons, List.append_assoc]
    exact link.operandEnd _

/-! ## reading a part of a text -/

/-- that a text which begins with a node, and goes on with `F`, begins so with no other node of the
kind `Q` -/
def Reads (Q : Node → Prop) (F : List Char → Prop) (b : Bool) (n : Node) : Prop :=
  ∀ m, Q m → ∀ r r', F r → F r' → n.oneLine b ++ r = m.oneLine b ++ r' → n.erase = m.erase ∧ r = r'

/-- what is read after a comma, is read with the comma -/
theorem Reads.after_comma {Q : Node → Prop} {F : List Char → Prop} {b : Bool} {n : Node}
    (h : Reads Q F b n) : ∀ m, Q m → ∀ r r', F r → F r' →
      [',', ' '] ++ n.oneLine b ++ r = [',', ' '] ++ m.oneLine b ++ r' →
      n.erase = m.erase ∧ r = r' := by
  intro m hm r r' hr hr' heq
  rw [List.append_assoc, List.append_assoc] at heq
  exact h m hm r r' hr hr' (List.append_cancel_left heq)

def IsAtom (n : Node) : Prop := ∃ w body, Atom n w body

/-- what is before a mark tells whether there is a comma -/
theorem comma_inj {c : Char} (hc : c ≠ ',') {single single' : Bool} {r r' : List Char}
    (heq : comma single ++ c :: r = comma single' ++ c :: r') : single = single' ∧ r = r' := by
  cases single <;> cases single'
  · exact ⟨rfl, (List.cons.inj heq).2⟩
  · exact absurd (List.cons.inj heq).1 hc
  · exact absurd (List.cons.inj heq).1.symm hc
  · exact ⟨rfl, (List.cons.inj (List.cons.inj heq).2).2⟩

theorem OperandEnd.ne_member {r : List Char} (hr : OperandEnd r) (m : Member) (t : List Char) :
    r ≠ m.text ++ t := by
  rintro rfl
  rw [Member.text] at hr
  cases hsingle : m.single with
  | false =>
    rw [hsingle] at hr
    exact absurd (hr.ends '.' rfl) (by decide)
  | true =>
    rw [hsingle] at hr
    exact hr.member _ rfl rfl

theorem members_inj {ms ms' : List Member} (h : ∀ m ∈ ms, IsName m.attr)
    (h' : ∀ m ∈ ms', IsName m.attr) {r r' : List Char} (hr : OperandEnd r) (hr' : OperandEnd r')
    (heq : ms.flatMap Member.text ++ r = ms'.flatMap Member.text ++ r') : ms = ms' ∧ r = r' := by
  have hread (m m' : Member) (hm : IsName m.attr) (hm' : IsName m'.attr) (r r' : List Char)
      (hr : Ends atomEnds r) (hr' : Ends atomEnds r') (heq : m.text ++ r = m'.text ++ r') :
      m = m' ∧ r = r' := by
    rw [Member.text, Member.text, List.append_assoc, List.append_assoc] at heq
    obtain ⟨hsingle, heq⟩ := comma_inj (c := '.') (by decide) heq
    obtain ⟨hname, hrest⟩ := split_inj hm.chars hm'.chars (not_name_of_ends hr)
      (not_name_of_ends hr') heq
    obtain ⟨single, attr⟩ := m
    obtain ⟨single', attr'⟩ := m'
    exact ⟨congrArg₂ Member.mk hsingle (String.toList_injective hname), hrest⟩
  have hsub : operandEnds ⊆ atomEnds := List.subset_cons_self _ _
  obtain ⟨hmap, hrest⟩ := flatMap_inj (e := id) (Q := fun m => IsName m.attr) (F := Ends atomEnds)
    (fun m _ => m.ends) (hr.ends.mono hsub) (hr'.ends.mono hsub) (fun m _ t _ => hr.ne_member m t)
    (fun m _ t _ => hr'.ne_member m t)
    (fun m hm => ⟨h m hm, fun m' hm' => hread m m' (h m hm) hm'⟩) h' heq
  rw [List.map_id, List.map_id] at hmap
  exact ⟨hmap, hrest⟩

theorem Operand.reads {n : Node} (h : Operand n)
    (hstem : Reads IsAtom (Ends atomEnds) true n.stem) : Reads Operand OperandEnd true n := by
  intro m hm r r' hr hr' heq
  have hsub : operandEnds ⊆ atomEnds := List.subset_cons_self _ _
  rw [h.oneLine_stem, hm.oneLine_stem, List.append_assoc, List.append_assoc] at heq
  obtain ⟨hatom, heq⟩ := hstem m.stem hm.stem_atom _ _
    ((ends_members _).append (hr.ends.mono hsub)) ((ends_members _).append (hr'.ends.mono hsub)) heq
  obtain ⟨hmembers, hrest⟩ := members_inj h.members hm.members hr hr' heq
  rw [erase_stem n, erase_stem m, hatom, hmembers]
  exact ⟨rfl, hrest⟩

theorem symbol_inj {op op' : Operator} (h : op ∈ Operator.comparisons)
    (h' : op' ∈ Operator.comparisons)
    (heq : (op.symbol?.getD "").toList = (op'.symbol?.getD "").toList) : op = op' := by
  have hall : ∀ op ∈ Operator.comparisons, ∀ op' ∈ Operator.comparisons,
      (op.symbol?.getD "").toList = (op'.symbol?.getD "").toList → op = op' := by decide
  exact hall op h op' h' heq

/-- an operator ends at the space after it -/
theorem operator_inj {n m : Node} (hn : Term .operator n) (hm : Term .operator m) {r r' : List Char}
    (heq : n.oneLine false ++ ' ' :: r = m.oneLine false ++ ' ' :: r') :
    n.erase = m.erase ∧ r = r' := by
  have hchars : ∀ op ∈ Operator.comparisons,
      (op.symbol?.getD "").toList.all (· != ' ') = true := by decide
  have hspace (r : List Char) : ∀ c ∈ (' ' :: r).head?, (c != ' ') = false := by
    rintro _ ⟨⟩
    rfl
  cases hn with
  | operator hop =>
    cases hm with
    | operator hop' =>
      obtain ⟨hsymbol, hrest⟩ := split_inj (List.all_eq_true.mp (hchars _ hop))
        (List.all_eq_true.mp (hchars _ hop')) (hspace r) (hspace r') heq
      rw [symbol_inj hop hop' hsymbol]
      exact ⟨rfl, (List.cons.inj hrest).2⟩

theorem operator_head {n : Node} (h : Term .operator n) (r : List Char) :
    ¬ Unmarked (n.oneLine false ++ r) := by
  have hall : ∀ op ∈ Operator.comparisons,
      (op.symbol?.getD "").toList.head?.any (· ∈ comparisonMarks) = true := by decide
  intro hunmarked
  cases h with
  | operator hop =>
    obtain ⟨c, hc, hmark⟩ := (Option.any_eq_true _ _).mp (hall _ hop)
    obtain ⟨s, hs⟩ := List.head?_eq_some_iff.mp hc
    refine hunmarked c ?_ (of_decide_eq_true hmark)
    rw [oneLine, hs]
    rfl

theorem Link.text_append (link : Link) (r : List Char) :
    link.text ++ r = comma link.single ++
      ' ' :: (link.op.oneLine false ++ ' ' :: (link.operand.oneLine true ++ r)) := by
  rw [text, List.append_assoc, List.cons_append, List.append_assoc, List.cons_append]

theorem ItemEnd.ne_link {r : List Char} (hr : ItemEnd r) (link : Link) (hlink : link.Legible)
    (t : List Char) : r ≠ link.text ++ t := by
  rintro rfl
  rw [link.text_append] at hr
  cases hsingle : link.single with
  | false =>
    rw [hsingle] at hr
    exact absurd (hr.ends ' ' rfl) (by decide)
  | true =>
    rw [hsingle] at hr
    exact operator_head hlink.op _ ((hr.resumes _ rfl).operator _ rfl)

theorem link_inj {link link' : Link} (h : link.Legible) (h' : link'.Legible)
    (hread : Reads Operand OperandEnd true link.operand) (r r' : List Char) (hr : OperandEnd r)
    (hr' : OperandEnd r') (heq : link.text ++ r = link'.text ++ r') :
    link.erase = link'.erase ∧ r = r' := by
  rw [link.text_append, link'.text_append] at heq
  obtain ⟨hsingle, heq⟩ := comma_inj (c := ' ') (by decide) heq
  obtain ⟨hop, heq⟩ := operator_inj h.op h'.op heq
  obtain ⟨hoperand, hrest⟩ := hread link'.operand h'.operand r r' hr hr' heq
  rw [Link.erase, Link.erase, hsingle, hop, hoperand]
  exact ⟨rfl, hrest⟩

theorem Legible.reads {n : Node} (h : Legible n)
    (hfirst : Reads Operand OperandEnd true n.firstOperand)
    (hlinks : ∀ link ∈ n.links, Reads Operand OperandEnd true link.operand) :
    Reads Legible ItemEnd true n := by
  intro m hm r r' hr hr' heq
  rw [h.oneLine_links, hm.oneLine_links, List.append_assoc, List.append_assoc] at heq
  obtain ⟨hoperand, heq⟩ :=
    hfirst _ hm.links.1 _ _ hr.operand.links hr'.operand.links heq
  obtain ⟨hmap, hrest⟩ := flatMap_inj (Q := Link.Legible) (F := OperandEnd)
    (fun link _ => link.operandEnd) hr.operand hr'.operand
    (fun link hlink t _ => hr.ne_link link hlink t)
    (fun link hlink t _ => hr'.ne_link link hlink t)
    (fun link hlink => ⟨h.links.2 link hlink, fun link' hlink' =>
      link_inj (h.links.2 link hlink) hlink' (hlinks link hlink)⟩) hm.links.2 heq
  rw [h.erase_links, hm.erase_links, hoperand, hmap]
  exact ⟨rfl, hrest⟩

/-! ## items without brackets -/

/-- a text that goes on with no lone comma -/
structure Single (r : List Char) : Prop extends ItemEnd r where
  single : ∀ t, r = ',' :: t → ¬ Ends itemEnds t

/-- a text that goes on with no comma of a tuple -/
structure Follow (r : List Char) : Prop extends Single r where
  more : ∀ n, Legible n → ∀ t, ItemEnd t → r ≠ ',' :: ' ' :: (n.oneLine true ++ t)

theorem Follow.of_mark {c : Char} {r : List Char} (hc : c ∈ itemEnds) (hne : c ≠ ',') :
    Follow (c :: r) :=
  ⟨⟨ItemEnd.of_mark hc hne, fun _ heq => absurd (List.cons.inj heq).1 hne⟩,
    fun _ _ _ _ heq => absurd (List.cons.inj heq).1 hne⟩

theorem Follow.nil : Follow [] :=
  ⟨⟨ItemEnd.nil, fun _ heq => by cases heq⟩, fun _ _ _ _ heq => by cases heq⟩

/-- the comma of a single item is not mistaken for what follows -/
theorem Single.comma_inj {single single' : Bool} {r r' : List Char} (hr : Single r)
    (hr' : Single r') (heq : comma single ++ r = comma single' ++ r') :
    single = single' ∧ r = r' := by
  cases single <;> cases single'
  · exact ⟨rfl, heq⟩
  · exact absurd hr'.ends (hr.single _ heq)
  · exact absurd hr.ends (hr'.single _ heq.symm)
  · exact ⟨rfl, (List.cons.inj heq).2⟩

theorem Single.itemEnd {r : List Char} (hr : Single r) (single : Bool) :
    ItemEnd (comma single ++ r) := by
  cases single
  · exact hr.toItemEnd
  · exact ItemEnd.of_comma (Resumes.of_ends hr.ends)

/-- another item comes after a comma -/
theorem Legible.itemEnd {n : Node} (h : Legible n) (r : List Char) :
    ItemEnd ([',', ' '] ++ n.oneLine true ++ r) :=
  ItemEnd.of_comma (Resumes.space ((h.opening true).unmarked r))

/-- items are read one by one, and then the comma of a single one -/
theorem row_inj {xs ys : List Node} (hxs : ∀ x ∈ xs, Legible x) (hys : ∀ y ∈ ys, Legible y)
    (hread : ∀ x ∈ xs, Reads Legible ItemEnd true x) {single single' : Bool} {r r' : List Char}
    (hr : Follow r) (hr' : Follow r')
    (heq : commas (xs.map (oneLine true)) ++ (comma single ++ r) =
      commas (ys.map (oneLine true)) ++ (comma single' ++ r')) :
    xs.map erase = ys.map erase ∧ single = single' ∧ r = r' := by
  have hsub : itemEnds ⊆ atomEnds := by decide
  have hopen {xs : List Node} (hxs : ∀ x ∈ xs, Legible x) :
      ∀ text ∈ xs.map (oneLine true), ¬ Ends atomEnds text :=
    List.forall_mem_map.mpr fun x hx => ((hxs x hx).opening true).not_ends
  have hend (single : Bool) {r : List Char} (hr : Follow r) (y : Node) (hy : Legible y)
      (t : List Char) (ht : ItemEnd t) : comma single ++ r ≠ [',', ' '] ++ y.oneLine true ++ t := by
    intro heq
    cases single with
    | false => exact hr.more y hy t ht heq
    | true =>
      -- no space comes after the comma of a single item
      obtain rfl : r = ' ' :: (y.oneLine true ++ t) := (List.cons.inj heq).2
      exact absurd (hr.ends ' ' rfl) (by decide)
  have hlast := hr.itemEnd single
  have hlast' := hr'.itemEnd single'
  have hflat := flatMap_of_intercalate (hopen hxs) (hopen hys) (hlast.ends.mono hsub)
    (hlast'.ends.mono hsub) heq
  rw [List.flatMap_map, List.flatMap_map] at hflat
  obtain ⟨hmap, hrest⟩ := flatMap_inj (Q := Legible) (F := ItemEnd) (e := erase)
    (fun _ => Legible.itemEnd) hlast hlast' (hend single hr) (hend single' hr')
    (fun x hx => ⟨hxs x hx, (hread x hx).after_comma⟩) hys hflat
  exact ⟨hmap, hr.comma_inj hr'.toSingle hrest⟩

theorem Legible.reads_row {n : Node} (h : Legible n)
    (hrow : ∀ x ∈ n.row, Reads Legible ItemEnd true x) : Reads Legible Follow false n := by
  intro m hm r r' hr hr' heq
  rw [oneLine_row, oneLine_row, List.append_assoc, List.append_assoc] at heq
  obtain ⟨hmap, hsingle, hrest⟩ := row_inj h.row hm.row hrow hr hr' heq
  exact ⟨erase_row hmap hsingle, hrest⟩

/-- what may follow an argument: the end, or another one -/
def Closes (r : List Char) : Prop :=
  (∃ t, r = ')' :: t) ∨ ∃ t, Unmarked t ∧ r = ',' :: ' ' :: t

theorem Closes.single {r : List Char} (h : Closes r) : Single r := by
  obtain ⟨t, rfl⟩ | ⟨t, ht, rfl⟩ := h
  · exact (Follow.of_mark (by decide) (by decide)).toSingle
  · refine ⟨ItemEnd.of_comma (Resumes.space ht), ?_⟩
    rintro _ ⟨⟩ hends
    exact absurd (hends ' ' rfl) (by decide)

theorem Argument.reads {n : Node} (h : Argument n)
    (hsole : Reads Legible ItemEnd true n.sole) : Reads Argument Closes false n := by
  intro m hm r r' hr hr' heq
  rw [oneLine_sole h.2, oneLine_sole hm.2, List.append_assoc, List.append_assoc] at heq
  obtain ⟨hitem, heq⟩ := hsole m.sole hm.1.sole _ _ (hr.single.itemEnd _) (hr'.single.itemEnd _) heq
  obtain ⟨hsingle, hrest⟩ := hr.single.comma_inj hr'.single heq
  rw [erase_sole n, erase_sole m, hitem, hsingle]
  exact ⟨rfl, hrest⟩

theorem Argument.closes {n : Node} (h : Argument n) (r : List Char) :
    Closes ([',', ' '] ++ n.oneLine false ++ r) :=
  .inr ⟨_, (h.1.opening false).unmarked r, rfl⟩

/-! ## arguments by name -/

theorem label_inj {name name' : Option String} (h : ∀ s ∈ name, IsName s)
    (h' : ∀ s ∈ name', IsName s) {r r' : List Char} (heq : label name ++ r = label name' ++ r') :
    name = name' ∧ r = r' := by
  have hstar {s : String} (hs : IsName s) (r r' : List Char) :
      label none ++ r ≠ label (some s) ++ r' := by
    intro heq
    obtain ⟨c, cs, hcs⟩ := List.exists_cons_of_ne_nil hs.word.ne
    have hname := hs.chars c (hcs ▸ List.mem_cons_self)
    rw [label, label, hcs] at heq
    obtain ⟨rfl, -⟩ := List.cons.inj heq
    exact absurd hname (by decide)
  cases name with
  | none =>
    cases name' with
    | none => exact ⟨rfl, List.append_cancel_left heq⟩
    | some s => exact absurd heq (hstar (h' s rfl) r r')
  | some s =>
    cases name' with
    | none => exact absurd heq.symm (hstar (h s rfl) r' r)
    | some s' =>
      have hequals (r : List Char) : ∀ c ∈ (['='] ++ r).head?, isNameChar c = false := by
        rintro _ ⟨⟩
        decide
      rw [label, label, List.append_assoc, List.append_assoc] at heq
      obtain ⟨hname, hrest⟩ :=
        split_inj (h s rfl).chars (h' s' rfl).chars (hequals r) (hequals r') heq
      exact ⟨congrArg some (String.toList_injective hname), (List.cons.inj hrest).2⟩

/-- what may follow an argument by name: the end, or another one -/
def Labels (r : List Char) : Prop :=
  (∃ t, r = ')' :: t) ∨ ∃ name t, (∀ s ∈ name, IsName s) ∧ r = ',' :: ' ' :: (label name ++ t)

theorem unmarked_label {name : Option String} (h : ∀ s ∈ name, IsName s) (r : List Char) :
    Unmarked (label name ++ r) := by
  cases name with
  | none =>
    rintro _ ⟨⟩
    decide
  | some s =>
    obtain ⟨c, cs, hcs⟩ := List.exists_cons_of_ne_nil (h s rfl).word.ne
    have hname := (h s rfl).chars c (hcs ▸ List.mem_cons_self)
    have hall : ∀ c ∈ comparisonMarks, isNameChar c = false := List.all_iff_forall_prop.mp (by decide)
    rw [label, hcs]
    rintro _ ⟨⟩ hmark
    rw [hall c hmark] at hname
    cases hname

theorem Labels.closes {r : List Char} (h : Labels r) : Closes r := by
  obtain ⟨t, rfl⟩ | ⟨name, t, hname, rfl⟩ := h
  · exact .inl ⟨t, rfl⟩
  · exact .inr ⟨_, unmarked_label hname t, rfl⟩

theorem Labels.follow {r : List Char} (h : Labels r) : Follow r := by
  refine ⟨h.closes.single, fun n hn t' ht' => ?_⟩
  obtain ⟨t, rfl⟩ | ⟨name, t, hname, rfl⟩ := h
  · exact fun heq => by cases heq
  · intro heq
    have hopen := (hn.opening true).append (ht'.ends.mono (by decide))
    exact hopen.ne_label hname t (List.cons.inj (List.cons.inj heq).2).2.symm

namespace Keyword
variable {k : Node}

theorem oneLine_label (h : Keyword k) :
    ∃ name cs, (∀ s ∈ name, IsName s) ∧ k.oneLine false = label name ++ cs := by
  obtain ⟨offset, name, value, rfl, hname, -⟩ := h
  exact ⟨name, _, hname, rfl⟩

theorem not_ends (h : Keyword k) : ¬ Ends atomEnds (k.oneLine false) := by
  obtain ⟨name, cs, hname, htext⟩ := h.oneLine_label
  rw [htext]
  intro hends
  cases name with
  | none => exact absurd (hends '*' rfl) (by decide)
  | some s =>
    obtain ⟨c, cs', hcs⟩ := List.exists_cons_of_ne_nil (hname s rfl).word.ne
    have hchar := (hname s rfl).chars c (hcs ▸ List.mem_cons_self)
    have hstop := not_name_of_ends hends c (by rw [label, hcs]; rfl)
    rw [hstop] at hchar
    cases hchar

theorem reads (h : ∀ c ∈ k.children, Legible c → Reads Legible Follow false c) (hk : Keyword k) :
    Reads Keyword Labels false k := by
  obtain ⟨offset, name, value, rfl, hname, hvalue⟩ := hk
  rintro _ ⟨offset', name', value', rfl, hname', hvalue'⟩ r r' hr hr' heq
  rw [oneLine, oneLine, List.append_assoc, List.append_assoc] at heq
  obtain ⟨rfl, hvalues⟩ := label_inj hname hname' heq
  have hread := h value (List.mem_singleton_self _) hvalue
  obtain ⟨herase, hrest⟩ := hread value' hvalue' r r' hr.follow hr'.follow hvalues
  rw [erase, erase, herase]
  exact ⟨rfl, hrest⟩

end Keyword

/-! ## calls -/

/-- nodes with a comma before each -/
def listed (ns : List Node) : List Char := ns.flatMap fun n => [',', ' '] ++ n.oneLine false

theorem Keyword.labels {k : Node} (h : Keyword k) (r : List Char) :
    Labels ([',', ' '] ++ k.oneLine false ++ r) := by
  obtain ⟨name, cs, hname, htext⟩ := h.oneLine_label
  refine .inr ⟨name, cs ++ r, hname, ?_⟩
  rw [htext, List.append_assoc, List.append_assoc]
  rfl

theorem labels_listed {keywords : List Node} (h : ∀ k ∈ keywords, Keyword k) (r : List Char) :
    Labels (listed keywords ++ ')' :: r) := by
  cases keywords with
  | nil => exact .inl ⟨r, rfl⟩
  | cons k keywords =>
    rw [listed, List.flatMap_cons, List.append_assoc]
    exact (h k List.mem_cons_self).labels _

/-- arguments by name are no arguments that are listed before them -/
theorem Labels.ne_argument {r : List Char} (h : Labels r) (n : Node) (hn : Argument n)
    (t : List Char) (ht : Closes t) : r ≠ [',', ' '] ++ n.oneLine false ++ t := by
  intro heq
  obtain ⟨t', rfl⟩ | ⟨name, t', hname, rfl⟩ := h
  · cases heq
  · have hopen := (hn.1.opening false).append (ht.single.ends.mono (by decide))
    exact hopen.ne_label hname t' (List.cons.inj (List.cons.inj heq).2).2.symm

theorem Arguments.not_ends {args keywords : List Node} (h : Arguments args keywords) :
    ∀ text ∈ (args ++ keywords).map (oneLine false), ¬ Ends atomEnds text := by
  refine List.forall_mem_map.mpr (List.forall_mem_append.mpr ⟨fun n hn => ?_, fun k hk => ?_⟩)
  · exact ((h.args n hn).1.opening false).not_ends
  · exact (h.keywords k hk).not_ends

theorem arguments_inj {args args' keywords keywords' : List Node} (h : Arguments args keywords)
    (h' : Arguments args' keywords') (hargs : ∀ n ∈ args, Reads Argument Closes false n)
    (hkeywords : ∀ k ∈ keywords, Reads Keyword Labels false k) {r r' : List Char}
    (heq : commas ((args ++ keywords).map (oneLine false)) ++ ')' :: r =
      commas ((args' ++ keywords').map (oneLine false)) ++ ')' :: r') :
    args.map erase = args'.map erase ∧ keywords.map erase = keywords'.map erase ∧ r = r' := by
  have hlabels := labels_listed h.keywords r
  have hlabels' := labels_listed h'.keywords r'
  have hflat := flatMap_of_intercalate h.not_ends h'.not_ends (Ends.cons (by decide))
    (Ends.cons (by decide)) heq
  rw [List.flatMap_map, List.flatMap_map, List.flatMap_append, List.flatMap_append,
    List.append_assoc, List.append_assoc] at hflat
  obtain ⟨hargsMap, hrest⟩ := flatMap_inj (Q := Argument) (F := Closes) (e := erase)
    (fun _ => Argument.closes) hlabels.closes hlabels'.closes hlabels.ne_argument
    hlabels'.ne_argument (fun n hn => ⟨h.args n hn, (hargs n hn).after_comma⟩) h'.args hflat
  have hend (r : List Char) (k : Node) (_ : Keyword k) (t : List Char) (_ : Labels t) :
      ')' :: r ≠ [',', ' '] ++ k.oneLine false ++ t := fun heq => by cases heq
  obtain ⟨hkeywordsMap, hrest⟩ := flatMap_inj (Q := Keyword) (F := Labels) (e := erase)
    (fun k hk r => hk.labels r) (.inl ⟨r, rfl⟩) (.inl ⟨r', rfl⟩) (hend r) (hend r')
    (fun k hk => ⟨h.keywords k hk, (hkeywords k hk).after_comma⟩) h'.keywords hrest
  exact ⟨hargsMap, hkeywordsMap, (List.cons.inj hrest).2⟩

/-! ## dictionaries -/

/-- what may follow an entry: the end, or another key -/
def Entries (r : List Char) : Prop :=
  (∃ t, r = '\x7d' :: t) ∨ ∃ key t, Legible key ∧ r = ',' :: (key.oneLine false ++ t)

theorem Legible.not_ends {n : Node} (h : Legible n) (b : Bool) (r : List Char) :
    ¬ Ends atomEnds (n.oneLine b ++ r) := fun hends => (h.opening b).not_ends hends.of_append

theorem Entries.follow {r : List Char} (h : Entries r) : Follow r := by
  obtain ⟨t, rfl⟩ | ⟨key, t, hkey, rfl⟩ := h
  · exact Follow.of_mark (by decide) (by decide)
  · refine ⟨⟨ItemEnd.of_comma ((hkey.opening false).resumes t), ?_⟩, fun n _ t' _ heq => ?_⟩
    · rintro _ ⟨⟩ hends
      exact hkey.not_ends false t (hends.mono (by decide))
    · have hends : Ends atomEnds (key.oneLine false ++ t) := by
        rw [(List.cons.inj heq).2]
        exact Ends.cons (by decide)
      exact hkey.not_ends false t hends

theorem zip_inj {α : Type} {xs ys xs' ys' : List α} (h : xs.length = ys.length)
    (h' : xs'.length = ys'.length) (heq : xs.zip ys = xs'.zip ys') : xs = xs' ∧ ys = ys' := by
  have hfst := congrArg (List.map Prod.fst) heq
  have hsnd := congrArg (List.map Prod.snd) heq
  rw [List.map_fst_zip h.le, List.map_fst_zip h'.le] at hfst
  rw [List.map_snd_zip h.ge, List.map_snd_zip h'.ge] at hsnd
  exact ⟨hfst, hsnd⟩

/-- a key and its value -/
def Entry (entry : Node × Node) : Prop := Legible entry.1 ∧ Legible entry.2

/-- a key ends at its colon, a value where another key may follow -/
theorem entry_inj {entry entry' : Node × Node} (h' : Entry entry')
    (hkey : Reads Legible Follow false entry.1) (hvalue : Reads Legible Follow false entry.2)
    {r r' : List Char} (hr : Entries r) (hr' : Entries r')
    (heq : [','] ++ entryText entry ++ r = [','] ++ entryText entry' ++ r') :
    Prod.map erase erase entry = Prod.map erase erase entry' ∧ r = r' := by
  have hcolon (r : List Char) : Follow (':' :: r) := Follow.of_mark (by decide) (by decide)
  rw [entryText, entryText, List.append_assoc, List.append_assoc, List.append_assoc,
    List.append_assoc] at heq
  obtain ⟨hkeys, heq⟩ := hkey entry'.1 h'.1 _ _ (hcolon _) (hcolon _) (List.cons.inj heq).2
  have hspace := (List.cons.inj (List.cons.inj heq).2).2
  obtain ⟨hvalues, hrest⟩ := hvalue entry'.2 h'.2 r r' hr.follow hr'.follow hspace
  exact ⟨Prod.ext hkeys hvalues, hrest⟩

theorem entries_inj {entries entries' : List (Node × Node)} (h : ∀ entry ∈ entries, Entry entry)
    (h' : ∀ entry ∈ entries', Entry entry)
    (hread : ∀ entry ∈ entries,
      Reads Legible Follow false entry.1 ∧ Reads Legible Follow false entry.2) {r r' : List Char}
    (heq : [','].intercalate (entries.map entryText) ++ '\x7d' :: r =
      [','].intercalate (entries'.map entryText) ++ '\x7d' :: r') :
    entries.map (Prod.map erase erase) = entries'.map (Prod.map erase erase) ∧ r = r' := by
  have hopen {entries : List (Node × Node)} (h : ∀ entry ∈ entries, Entry entry) :
      ∀ text ∈ entries.map entryText, ¬ Ends atomEnds text :=
    List.forall_mem_map.mpr fun entry hentry => (h entry hentry).1.not_ends false _
  have hcomma (entry : Node × Node) (hentry : Entry entry) (r : List Char) :
      Entries ([','] ++ entryText entry ++ r) := by
    refine .inr ⟨entry.1, ':' :: ' ' :: entry.2.oneLine false ++ r, hentry.1, ?_⟩
    rw [entryText, List.append_assoc, List.append_assoc]
    rfl
  have hend (r : List Char) (entry : Node × Node) (_ : Entry entry) (t : List Char)
      (_ : Entries t) : '\x7d' :: r ≠ [','] ++ entryText entry ++ t := fun heq => by cases heq
  have hflat := flatMap_of_intercalate (hopen h) (hopen h') (Ends.cons (by decide))
    (Ends.cons (by decide)) heq
  rw [List.flatMap_map, List.flatMap_map] at hflat
  obtain ⟨hmap, hrest⟩ := flatMap_inj (Q := Entry) (F := Entries) (e := Prod.map erase erase) hcomma
    (.inl ⟨r, rfl⟩) (.inl ⟨r', rfl⟩) (hend r) (hend r')
    (fun entry hentry => ⟨h entry hentry, fun entry' h' r r' =>
      entry_inj h' (hread entry hentry).1 (hread entry hentry).2⟩) h' hflat
  exact ⟨hmap, (List.cons.inj hrest).2⟩

/-! ## atoms -/

/-- how each part of an expression is told from its text, with what may follow it -/
structure Readable (n : Node) : Prop where
  stem : Operand n → Reads IsAtom (Ends atomEnds) true n.stem
  first : Legible n → Reads Operand OperandEnd true n.firstOperand
  links : Legible n → ∀ link ∈ n.links, Reads Operand OperandEnd true link.operand
  whole : Legible n → Reads Legible Follow false n
  argument : Argument n → Reads Argument Closes false n
  keyword : Keyword n → Reads Keyword Labels false n

theorem Readable.operand {n : Node} (h : Readable n) (hn : Operand n) :
    Reads Operand OperandEnd true n := hn.reads (h.stem hn)

theorem Readable.item {n : Node} (h : Readable n) (hn : Legible n) :
    Reads Legible ItemEnd true n := hn.reads (h.first hn) (h.links hn)

/-- what follows the word of an atom, tells whether there is a bracket -/
theorem head_inj {body body' r r' : List Char} (hbody : ∀ c ∈ body.head?, c ∈ brackets)
    (hbody' : ∀ c ∈ body'.head?, c ∈ brackets) (hr : Ends atomEnds r) (hr' : Ends atomEnds r')
    (heq : body ++ r = body' ++ r') : body.head? = body'.head? := by
  cases body with
  | nil =>
    cases body' with
    | nil => rfl
    | cons c body' =>
      rw [List.nil_append] at heq
      rw [heq] at hr
      exact absurd (hr c rfl) (not_mem_atomEnds (hbody' c rfl))
  | cons c body =>
    cases body' with
    | nil =>
      rw [List.nil_append] at heq
      rw [← heq] at hr'
      exact absurd (hr' c rfl) (not_mem_atomEnds (hbody c rfl))
    | cons c' body' => rw [(List.cons.inj heq).1]; rfl

theorem tuple_inj {elts elts' : List Node} (h : ∀ n ∈ elts, Legible n) (h' : ∀ n ∈ elts', Legible n)
    (hread : ∀ n ∈ elts, Reads Legible ItemEnd true n) {r r' : List Char}
    (heq : items (elts.map (oneLine true)) ++ ')' :: r =
      items (elts'.map (oneLine true)) ++ ')' :: r') :
    elts.map erase = elts'.map erase ∧ r = r' := by
  have hclose (r : List Char) : Follow (')' :: r) := Follow.of_mark (by decide) (by decide)
  rw [items_map 0 elts, items_map 0 elts', List.append_assoc, List.append_assoc] at heq
  obtain ⟨hmap, -, hrest⟩ := row_inj h h' hread (hclose r) (hclose r') heq
  exact ⟨hmap, (List.cons.inj hrest).2⟩

theorem list_inj {elts elts' : List Node} (h : ∀ n ∈ elts, Legible n) (h' : ∀ n ∈ elts', Legible n)
    (hread : ∀ n ∈ elts, Reads Legible ItemEnd true n) {r r' : List Char}
    (heq : commas (elts.map (oneLine true)) ++ ']' :: r =
      commas (elts'.map (oneLine true)) ++ ']' :: r') :
    elts.map erase = elts'.map erase ∧ r = r' := by
  have hclose (r : List Char) : Follow (']' :: r) := Follow.of_mark (by decide) (by decide)
  have heq : commas (elts.map (oneLine true)) ++ (comma false ++ ']' :: r) =
      commas (elts'.map (oneLine true)) ++ (comma false ++ ']' :: r') := heq
  obtain ⟨hmap, -, hrest⟩ := row_inj h h' hread (hclose r) (hclose r') heq
  exact ⟨hmap, (List.cons.inj hrest).2⟩

theorem dict_inj {keys values keys' values' : List Node} (hlength : keys.length = values.length)
    (hlength' : keys'.length = values'.length)
    (h : ∀ n ∈ keys ++ values, Legible n) (h' : ∀ n ∈ keys' ++ values', Legible n)
    (hread : ∀ n ∈ keys ++ values, Reads Legible Follow false n) {r r' : List Char}
    (heq : [','].intercalate ((keys.zip values).map entryText) ++ '\x7d' :: r =
      [','].intercalate ((keys'.zip values').map entryText) ++ '\x7d' :: r') :
    (keys.map erase = keys'.map erase ∧ values.map erase = values'.map erase) ∧ r = r' := by
  have hentry {P : Node → Prop} {keys values : List Node} (h : ∀ n ∈ keys ++ values, P n) :
      ∀ entry ∈ keys.zip values, P entry.1 ∧ P entry.2 := by
    intro entry hentry
    obtain ⟨hkey, hvalue⟩ := List.of_mem_zip hentry
    exact ⟨h _ (List.mem_append_left _ hkey), h _ (List.mem_append_right _ hvalue)⟩
  have hmap {keys values : List Node} (h : keys.length = values.length) :
      (keys.map erase).length = (values.map erase).length := by
    rw [List.length_map, List.length_map, h]
  obtain ⟨hzip, hrest⟩ := entries_inj (hentry h) (hentry h') (hentry hread) heq
  rw [← List.zip_map, ← List.zip_map] at hzip
  exact ⟨zip_inj (hmap hlength) (hmap hlength') hzip, hrest⟩

theorem Atom.reads {n : Node} {w body : List Char} (h : Atom n w body)
    (ih : ∀ c ∈ n.children, Readable c) : Reads IsAtom (Ends atomEnds) true n := by
  rintro m ⟨w', body', hm⟩ r r' hr hr' heq
  have hstop {body r : List Char} (hbody : ∀ c ∈ body.head?, c ∈ brackets) (hr : Ends atomEnds r) :
      ∀ c ∈ (body ++ r).head?, isNameChar c = false := by
    have hends : Ends separators (body ++ r) :=
      Ends.append (Ends.mono (by decide) hbody) (hr.mono (by decide))
    exact fun c hc => separator_of_mem (hends c hc)
  obtain ⟨hw, hbody, -⟩ := h.chars
  obtain ⟨hw', hbody', -⟩ := hm.chars
  rw [h.text, hm.text, List.append_assoc, List.append_assoc] at heq
  obtain ⟨hword, hafter⟩ := split_inj hw hw' (hstop hbody hr) (hstop hbody' hr') heq
  -- only a name that is called and a tuple go on with the same bracket, and a tuple has no word
  have hhead := head_inj hbody hbody' hr hr' hafter
  have hinside {a b : Char} {cs ds : List Char}
      (heq : a :: (cs ++ [b]) ++ r = a :: (ds ++ [b]) ++ r') : cs ++ b :: r = ds ++ b :: r' := by
    have htail : cs ++ [b] ++ r = ds ++ [b] ++ r' := (List.cons.inj heq).2
    rwa [List.append_assoc, List.append_assoc] at htail
  cases h with
  | word _ _ herase =>
    cases hm with
    | word _ _ herase' => exact ⟨by rw [herase, herase', hword], hafter⟩
    | _ => cases hhead
  | call hid harguments =>
    cases hm with
    | call hid' harguments' =>
      obtain ⟨hargs, hkeywords⟩ := List.forall_mem_append.mp (List.forall_mem_cons.mp ih).2
      obtain ⟨hargsMap, hkeywordsMap, hrest⟩ := arguments_inj harguments harguments'
        (fun n hn => (hargs n hn).argument (harguments.args n hn))
        (fun k hk => (hkeywords k hk).keyword (harguments.keywords k hk)) (hinside hafter)
      rw [erase, erase, erase, erase, eraseAll_eq_map, eraseAll_eq_map, eraseAll_eq_map,
        eraseAll_eq_map, String.toList_injective hword, hargsMap, hkeywordsMap]
      exact ⟨rfl, hrest⟩
    | tuple => exact absurd hword hid.word.ne
    | _ => cases hhead
  | tuple helts =>
    cases hm with
    | call hid' _ => exact absurd hword.symm hid'.word.ne
    | tuple helts' =>
      obtain ⟨hmap, hrest⟩ := tuple_inj helts helts' (fun n hn => (ih n hn).item (helts n hn))
        (hinside hafter)
      rw [erase, erase, eraseAll_eq_map, eraseAll_eq_map, hmap]
      exact ⟨rfl, hrest⟩
    | _ => cases hhead
  | list helts =>
    cases hm with
    | list helts' =>
      obtain ⟨hmap, hrest⟩ := list_inj helts helts' (fun n hn => (ih n hn).item (helts n hn))
        (hinside hafter)
      rw [erase, erase, eraseAll_eq_map, eraseAll_eq_map, hmap]
      exact ⟨rfl, hrest⟩
    | _ => cases hhead
  | dict hlength hkeys hvalues =>
    cases hm with
    | dict hlength' hkeys' hvalues' =>
      have hlegible := List.forall_mem_append.mpr ⟨hkeys, hvalues⟩
      have hlegible' := List.forall_mem_append.mpr ⟨hkeys', hvalues'⟩
      obtain ⟨⟨hkeysMap, hvaluesMap⟩, hrest⟩ := dict_inj hlength hlength' hlegible hlegible'
        (fun n hn => (ih n hn).whole (hlegible n hn)) (hinside hafter)
      rw [erase, erase, eraseAll_eq_map, eraseAll_eq_map, eraseAll_eq_map, eraseAll_eq_map,
        hkeysMap, hvaluesMap]
      exact ⟨rfl, hrest⟩
    | _ => cases hhead

/-! ## whole expressions -/

theorem readable (n : Node) : Readable n := by
  induction n using induct_sole with
  | step n ih =>
    have hchildren (m : Node) (hm : m ∈ n.children) : Readable m := (ih m hm).1
    have hstem (h : Operand n) : Reads IsAtom (Ends atomEnds) true n.stem := by
      cases n with
      | access offset value attr =>
        -- the stem of a member is further inside than its children
        obtain ⟨hvalue, -, hplain, -⟩ := h.legible.access
        rw [stem]
        exact (ih value (List.mem_singleton_self _)).2.stem ⟨hvalue, hplain⟩
      | _ =>
        obtain ⟨w, body, hatom⟩ := h.stem_atom
        rw [(stem_eq rfl).1] at hatom ⊢
        exact hatom.reads hchildren
    have hfirst (h : Legible n) : Reads Operand OperandEnd true n.firstOperand := by
      cases n with
      | compare offset left ops comparators =>
        rw [firstOperand]
        exact (ih left List.mem_cons_self).2.first h.compare.1.1
      | _ =>
        have hoperand : Operand _ := ⟨h, rfl⟩
        rw [(links_eq rfl).1]
        exact hoperand.reads (hstem hoperand)
    have hlinks (h : Legible n) : ∀ link ∈ n.links, Reads Operand OperandEnd true link.operand := by
      cases n with
      | compare offset left ops comparators =>
        obtain ⟨⟨hleft, -⟩, -, -, hcomparators⟩ := h.compare
        have hown : ∀ pair ∈ ops.zip comparators, Reads Operand OperandEnd true pair.2 := by
          intro pair hpair
          have hmem := (List.of_mem_zip hpair).2
          obtain ⟨hlegible, hbare⟩ := hcomparators _ hmem
          exact (hchildren _ (List.mem_cons_of_mem _ (List.mem_append_right _ hmem))).operand
            ⟨hlegible, (isBare_iff.mp hbare).2⟩
        rw [links]
        exact List.forall_mem_append.mpr ⟨(ih left List.mem_cons_self).2.links hleft,
          Link.forall_ofPairs hown⟩
      | _ =>
        rw [(links_eq rfl).2]
        exact List.forall_mem_nil _
    have hitem (h : Legible n) : Reads Legible ItemEnd true n := h.reads (hfirst h) (hlinks h)
    have hrow (h : Legible n) : ∀ x ∈ n.row, Reads Legible ItemEnd true x := by
      intro x hx
      rcases row_cases hx with rfl | hchild
      · exact hitem h
      · exact (hchildren x hchild).item (h.row x hx)
    refine ⟨hstem, hfirst, hlinks, fun h => h.reads_row (hrow h), fun h => h.reads ?_,
      fun h => h.reads fun c hc => (hchildren c hc).whole⟩
    have hsole : n.sole ∈ n.row := by rw [row_sole h.2]; exact List.mem_singleton_self _
    exact hrow h.1 _ hsole

/-- **What is printed alike is alike.**  Two terms of which no part would need brackets, and whose
lines are the same, even on different pages, are the same tree but for the offsets. -/
theorem Term.erase_of_render {n m : Node} {d e : Doc} {o o' : Options} (hn : Term .expression n)
    (hm : Term .expression m) (hclear : ∀ k ∈ n.nodes, k.isClear = true)
    (hclear' : ∀ k ∈ m.nodes, k.isClear = true) (hd : n.print = .ok d) (he : m.print = .ok e)
    (h : d.render o = e.render o') : n.erase = m.erase := by
  have hlayout : d.layout o = e.layout o' := String.ofList_injective h
  have htexts : n.oneLine false = m.oneLine false := by
    rw [← hn.oneLine_of_print hd o, hlayout, hm.oneLine_of_print he o']
  have hread := n.readable.whole ⟨hn, hclear⟩
  exact (hread m ⟨hm, hclear'⟩ [] [] Follow.nil Follow.nil (by rw [htexts])).1

/-- a comparison with a comparison inside, and tuples wherever they may be: the only item of one is
what the comparison begins with, that of another is what a member is taken of -/
def sampleTerm (offset : Int) : Node :=
  let a := ident offset "a"
  let called := call offset (ident offset "f") [tuple offset [a]]
    [keyword offset (some "k") (tuple offset [a, constant offset none])]
  let owner := tuple offset [dict offset [tuple offset [a, a]] [called]]
  let inner := compare offset (access offset owner "x") [operator offset .lt]
    [list offset [tuple offset [], tuple offset [a, a]]]
  compare offset (tuple offset [inner]) [operator offset .eq] [constant offset (some true)]

theorem term_sampleTerm (offset : Int) : Term .expression (sampleTerm offset) := by
  have hnames : IsName "a" ∧ IsName "f" ∧ IsName "k" ∧ IsName "x" := by decide
  simp [sampleTerm, hnames, Operator.comparisons]

theorem Term.erase_of_render_sample : ∃ d e,
    Term .expression (sampleTerm 0) ∧ Term .expression (sampleTerm 8) ∧
    (sampleTerm 0).print = .ok d ∧ (sampleTerm 8).print = .ok e ∧
    (∀ k ∈ (sampleTerm 0).nodes, k.isClear = true) ∧
    (∀ k ∈ (sampleTerm 8).nodes, k.isClear = true) ∧
    d.render {} = "\x7ba, a: f(a,, k=a, None)\x7d,.x < [(), (a, a)], == True" ∧
    d.render {} = e.render {} ∧ (sampleTerm 0).erase = (sampleTerm 8).erase := by
  have hclear : ∀ k ∈ (sampleTerm 0).nodes, k.isClear = true := by decide
  have hclear' : ∀ k ∈ (sampleTerm 8).nodes, k.isClear = true := by decide
  have hterm := term_sampleTerm 0
  have hterm' := term_sampleTerm 8
  refine ⟨_, _, hterm, hterm', rfl, rfl, hclear, hclear', by decide +kernel, rfl, ?_⟩
  exact Term.erase_of_render (o := {}) hterm hterm' hclear hclear' rfl rfl rfl

/-- pairs of terms.  Of each, one has a tuple of several items as an argument, a tuple or a comparison
as an operand, or one of the two, or a comparison in a tuple, as what a member is taken of; the other
one needs no brackets. -/
def lookalikes : List (Node × Node) :=
  let a := ident 0 "a"
  let b := ident 0 "b"
  let c := ident 0 "c"
  let less (n m : Node) := compare 0 n [operator 0 .lt] [m]
  let chain := compare 0 a [operator 0 .lt, operator 0 .lt] [b, c]
  [(call 0 c [tuple 0 [a, b]] [], call 0 c [a, b] []),
    (less (tuple 0 [a, b]) c, tuple 0 [a, less b c]),
    (less a (tuple 0 [b, c]), tuple 0 [less a b, c]),
    (less a (tuple 0 [b]), tuple 0 [less a b]),
    (less (less a b) c, chain),
    (less a (less b c), chain),
    (access 0 (tuple 0 [a, b]) "x", tuple 0 [a, access 0 b "x"]),
    (access 0 (tuple 0 [less a b]) "x", less a (access 0 (tuple 0 [b]) "x")),
    (access 0 (less a b) "x", less a (access 0 b "x"))]

/-- **Where brackets are missing, two trees have one text.** -/
theorem render_lookalikes : lookalikes ≠ [] ∧ ∀ p ∈ lookalikes,
    Term .expression p.1 ∧ Term .expression p.2 ∧ p.1.erase ≠ p.2.erase ∧
      (∀ k ∈ p.2.nodes, k.isClear = true) ∧
      ∃ d e, p.1.print = .ok d ∧ p.2.print = .ok e ∧ d.render {} = e.render {} := by
  have hterms : ∀ p ∈ lookalikes, Term .expression p.1 ∧ Term .expression p.2 := by
    have hnames : IsName "a" ∧ IsName "b" ∧ IsName "c" ∧ IsName "x" := by decide
    simp [lookalikes, hnames, Operator.comparisons]
  have herase : ∀ p ∈ lookalikes, p.1.erase ≠ p.2.erase := by
    simp [lookalikes, erase, eraseAll]
  have hclear : ∀ p ∈ lookalikes, ∀ k ∈ p.2.nodes, k.isClear = true := by decide
  have hrender : ∀ p ∈ lookalikes,
      ∃ d e, p.1.print = .ok d ∧ p.2.print = .ok e ∧ d.render {} = e.render {} := by
    simp only [lookalikes, List.forall_mem_cons]
    refine ⟨?_, ?_, ?_, ?_, ?_, ?_, ?_, ?_, ?_, List.forall_mem_nil _⟩ <;>
      exact ⟨_, _, rfl, rfl, by decide +kernel⟩
  refine ⟨List.cons_ne_nil _ _, fun p hp => ?_⟩
  exact ⟨(hterms p hp).1, (hterms p hp).2, herase p hp, hclear p hp, hrender p hp⟩

end Reflow.Node
