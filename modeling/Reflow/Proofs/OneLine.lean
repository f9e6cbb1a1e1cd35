import Mathlib.Data.Bool.AllAny
import Mathlib.Data.List.Chain
import Reflow.Proofs.Expressions
import Reflow.Proofs.Unbroken
import Reflow.Source.Scan

/-!
# Expressions on one line

The text of an expression on one line, told from the tree alone.  On any page the expression is
printed with the same characters; only at the braces and commas of dictionaries lines may end.

* `Node.Term`                names, numbers, constants, and what is built from them;
* `Node.oneLine`             the text of a term on one line;
* `Neat`                     pieces that begin and end with characters that are no blanks;
* `Doc.Shows`                a neat document with a known text; one lemma for each rule;
* `Term.oneLine_of_print`    the lines of a printed term, put together again, are this text.
-/

namespace Reflow

open Source (isNameStart isNameChar Reserved)

/-! ## terms -/

namespace Operator

def comparisons : List Operator := [lt, ltE, gt, gtE, eq, notEq]

end Operator

namespace Node

/-- a name: it begins as one, goes on as one, and is not reserved -/
structure IsName (s : String) : Prop where
  first : s.toList.head?.any isNameStart = true
  rest : s.toList.all isNameChar = true
  free : Reserved.ofText? s = none

instance (s : String) : Decidable (IsName s) :=
  decidable_of_iff (s.toList.head?.any isNameStart = true ∧ s.toList.all isNameChar = true ∧
      Reserved.ofText? s = none)
    ⟨fun h => ⟨h.1, h.2.1, h.2.2⟩, fun h => ⟨h.1, h.2, h.3⟩⟩

theorem IsName.chars {s : String} (h : IsName s) : ∀ c ∈ s.toList, isNameChar c = true :=
  List.all_eq_true.mp h.rest

/-- expressions built from names, natural numbers and constants, with the arguments by name and the
operators that stand in them -/
inductive Term : Role → Node → Prop where
  | ident {offset id} (hid : IsName id) : Term .expression (.ident offset id)
  | number {offset n} (hn : 0 ≤ n) : Term .expression (.number offset (.int n))
  | constant {offset value} : Term .expression (.constant offset value)
  | call {offset place id args keywords} (hid : IsName id) (hargs : ∀ n ∈ args, Term .expression n)
    (hkeywords : ∀ n ∈ keywords, Term .argument n) :
    Term .expression (.call offset (.ident place id) args keywords)
  | keyword {offset name value} (hname : ∀ s ∈ name, IsName s) (hvalue : Term .expression value) :
    Term .argument (.keyword offset name value)
  | tuple {offset elts} (helts : ∀ n ∈ elts, Term .expression n) :
    Term .expression (.tuple offset elts)
  | list {offset elts} (helts : ∀ n ∈ elts, Term .expression n) :
    Term .expression (.list offset elts)
  | dict {offset keys values} (hlength : keys.length = values.length)
    (hkeys : ∀ n ∈ keys, Term .expression n) (hvalues : ∀ n ∈ values, Term .expression n) :
    Term .expression (.dict offset keys values)
  | access {offset value attr} (hvalue : Term .expression value) (hattr : IsName attr) :
    Term .expression (.access offset value attr)
  | compare {offset left ops comparators} (hleft : Term .expression left) (hne : ops ≠ [])
    (hlength : ops.length = comparators.length) (hops : ∀ n ∈ ops, Term .operator n)
    (hcomparators : ∀ n ∈ comparators, Term .expression n) :
    Term .expression (.compare offset left ops comparators)
  | operator {offset op} (hop : op ∈ Operator.comparisons) : Term .operator (.operator offset op)

section
variable {offset place : Int} {id attr : String} {name : Option String}
variable {n value left : Node} {args keywords elts keys values ops comparators : List Node}

@[simp] theorem term_ident : Term .expression (.ident offset id) ↔ IsName id :=
  ⟨fun h => by cases h; assumption, .ident⟩

@[simp] theorem term_int {i : Int} : Term .expression (.number offset (.int i)) ↔ 0 ≤ i :=
  ⟨fun h => by cases h; assumption, .number⟩

@[simp] theorem term_constant {b : Option Bool} : Term .expression (.constant offset b) := .constant

@[simp] theorem term_call : Term .expression (.call offset (.ident place id) args keywords) ↔
    IsName id ∧ (∀ n ∈ args, Term .expression n) ∧ ∀ n ∈ keywords, Term .argument n :=
  ⟨fun h => by cases h; exact ⟨‹_›, ‹_›, ‹_›⟩, fun h => .call h.1 h.2.1 h.2.2⟩

@[simp] theorem term_keyword : Term .argument (.keyword offset name value) ↔
    (∀ s ∈ name, IsName s) ∧ Term .expression value :=
  ⟨fun h => by cases h; exact ⟨‹_›, ‹_›⟩, fun h => .keyword h.1 h.2⟩

@[simp] theorem term_tuple :
    Term .expression (.tuple offset elts) ↔ ∀ n ∈ elts, Term .expression n :=
  ⟨fun h => by cases h; assumption, .tuple⟩

@[simp] theorem term_list :
    Term .expression (.list offset elts) ↔ ∀ n ∈ elts, Term .expression n :=
  ⟨fun h => by cases h; assumption, .list⟩

@[simp] theorem term_dict : Term .expression (.dict offset keys values) ↔
    keys.length = values.length ∧ (∀ n ∈ keys, Term .expression n) ∧
      ∀ n ∈ values, Term .expression n :=
  ⟨fun h => by cases h; exact ⟨‹_›, ‹_›, ‹_›⟩, fun h => .dict h.1 h.2.1 h.2.2⟩

@[simp] theorem term_access :
    Term .expression (.access offset value attr) ↔ Term .expression value ∧ IsName attr :=
  ⟨fun h => by cases h; exact ⟨‹_›, ‹_›⟩, fun h => .access h.1 h.2⟩

@[simp] theorem term_compare : Term .expression (.compare offset left ops comparators) ↔
    Term .expression left ∧ (ops ≠ [] ∧ ops.length = comparators.length) ∧
      (∀ n ∈ ops, Term .operator n) ∧ ∀ n ∈ comparators, Term .expression n :=
  ⟨fun h => by cases h; exact ⟨‹_›, ⟨‹_›, ‹_›⟩, ‹_›, ‹_›⟩,
    fun h => .compare h.1 h.2.1.1 h.2.1.2 h.2.2.1 h.2.2.2⟩

@[simp] theorem term_operator {op : Operator} :
    Term .operator (.operator offset op) ↔ op ∈ Operator.comparisons :=
  ⟨fun h => by cases h; assumption, .operator⟩

end

/-! ## their texts -/

/-- texts with a comma and a space between two of them -/
def commas (texts : List (List Char)) : List Char := [',', ' '].intercalate texts

/-- the items of a tuple; a single one keeps its comma -/
def items : List (List Char) → List Char
  | [item] => item ++ [',']
  | texts => commas texts

def label : Option String → List Char
  | none => ['*', '*']
  | some name => name.toList ++ ['=']

def constantText : Option Bool → List Char
  | none => "None".toList
  | some true => "True".toList
  | some false => "False".toList

mutual
/-- the text of a term on one line, which may stand directly inside a tuple or a list -/
def oneLine (inSequence : Bool) : Node → List Char
  | .ident _ id => id.toList
  | .number _ (.int n) => (toString n).toList
  | .constant _ value => constantText value
  | .call _ callee args keywords =>
    callee.oneLine false ++
      '(' :: (commas (oneLines false args ++ oneLines false keywords) ++ [')'])
  | .keyword _ name value => label name ++ value.oneLine false
  | .tuple _ elts =>
    if elts.isEmpty then ['(', ')']
    else if inSequence then '(' :: (items (oneLines true elts) ++ [')'])
    else items (oneLines true elts)
  | .list _ elts => '[' :: (commas (oneLines true elts) ++ [']'])
  | .dict _ keys values =>
    '\x7b' :: ([','].intercalate (List.zipWith (fun key value => key ++ ':' :: ' ' :: value)
      (oneLines false keys) (oneLines false values)) ++ ['\x7d'])
  | .access _ value attr => value.oneLine false ++ '.' :: attr.toList
  | .compare _ left ops comparators =>
    left.oneLine false ++ (List.zipWith (fun op comparator => ' ' :: (op ++ ' ' :: comparator))
      (oneLines false ops) (oneLines false comparators)).flatten
  | .operator _ op => (op.symbol?.getD "").toList
  | _ => []
def oneLines (inSequence : Bool) : List Node → List (List Char)
  | [] => []
  | n :: ns => n.oneLine inSequence :: oneLines inSequence ns
end

theorem oneLines_eq_map (inSequence : Bool) (ns : List Node) :
    oneLines inSequence ns = ns.map (oneLine inSequence) := by
  induction ns with
  | nil => rfl
  | cons n ns ih => rw [oneLines, ih, List.map_cons]

end Node

/-! ## neat pieces -/

/-- pieces that begin and end with characters that are no blanks -/
structure Neat (ps : List Piece) : Prop where
  tidy : Tidy ps
  first : ∃ c, ps.head? = some (.char c) ∧ isBlank c = false
  last : ∃ c, ps.getLast? = some (.char c) ∧ isBlank c = false

namespace Neat
variable {ps qs : List Piece}

theorem append (hp : Neat ps) (hq : Neat qs) : Neat (ps ++ qs) := by
  obtain ⟨a, ha, -⟩ := hp.last
  obtain ⟨b, hb, -⟩ := hq.first
  obtain ⟨c, hc, hblank⟩ := hp.first
  obtain ⟨e, he, hend⟩ := hq.last
  have hchain : (ps ++ qs).IsChain Piece.Apart := by
    refine List.isChain_append.mpr ⟨hp.tidy.apart, hq.tidy.apart, ?_⟩
    rw [ha, hb]
    rintro _ ⟨⟩ _ ⟨⟩
    trivial
  exact ⟨⟨hchain, List.forall_mem_append.mpr ⟨hp.tidy.plain, hq.tidy.plain⟩⟩,
    ⟨c, by rw [List.head?_append, hc]; rfl, hblank⟩,
    ⟨e, by rw [List.getLast?_append, he]; rfl, hend⟩⟩

/-- a seam or a space between neat pieces -/
theorem glue {x : Piece} (hx : x = .seam ∨ x = .char ' ') (hp : Neat ps) (hq : Neat qs) :
    Neat (ps ++ x :: qs) := by
  obtain ⟨a, ha, hablank⟩ := hp.last
  obtain ⟨b, hb, hbblank⟩ := hq.first
  obtain ⟨c, hc, hblank⟩ := hp.first
  obtain ⟨e, he, hend⟩ := hq.last
  have hplain : x.Plain := by
    rcases hx with rfl | rfl
    · trivial
    · rfl
  have hapart : Piece.Apart (.char a) x ∧ Piece.Apart x (.char b) := by
    rcases hx with rfl | rfl
    · exact ⟨hablank, hbblank⟩
    · exact ⟨trivial, trivial⟩
  have hchain : (ps ++ x :: qs).IsChain Piece.Apart := by
    refine List.isChain_append.mpr ⟨hp.tidy.apart, List.isChain_cons.mpr ⟨?_, hq.tidy.apart⟩, ?_⟩
    · rw [hb]
      rintro _ ⟨⟩
      exact hapart.2
    · rw [ha]
      rintro _ ⟨⟩ _ ⟨⟩
      exact hapart.1
  refine ⟨⟨hchain, List.forall_mem_append.mpr ⟨hp.tidy.plain, ?_⟩⟩, ⟨c, ?_, hblank⟩, ⟨e, ?_, hend⟩⟩
  · exact List.forall_mem_cons.mpr ⟨hplain, hq.tidy.plain⟩
  · rw [List.head?_append, hc]
    rfl
  · rw [List.getLast?_append, List.getLast?_cons, he]
    rfl

/-- neat pieces stay neat if each of several things is added that leaves them so -/
theorem flatMap {α : Type} {f : α → List Piece} {as : List α}
    (h : ∀ a ∈ as, ∀ ps, Neat ps → Neat (ps ++ f a)) (hp : Neat ps) :
    Neat (ps ++ as.flatMap f) := by
  induction as generalizing ps with
  | nil => rwa [List.flatMap_nil, List.append_nil]
  | cons a as ih =>
    obtain ⟨ha, has⟩ := List.forall_mem_cons.mp h
    rw [List.flatMap_cons, ← List.append_assoc]
    exact ih has (ha ps hp)

/-- characters of which none is a blank -/
theorem solid {cs : List Char} (hne : cs ≠ [])
    (h : ∀ c ∈ cs, isLineEnd c = false ∧ isBlank c = false) : Neat (cs.map .char) := by
  obtain ⟨b, hb⟩ := Option.isSome_iff_exists.mp (List.isSome_head?.mpr hne)
  obtain ⟨e, he⟩ := Option.isSome_iff_exists.mp (List.getLast?_isSome.mpr hne)
  refine ⟨⟨?_, List.forall_mem_map.mpr fun c hc => (h c hc).1⟩,
    ⟨b, ?_, (h b (List.mem_of_head? hb)).2⟩, ⟨e, ?_, (h e (List.mem_of_getLast? he)).2⟩⟩
  · rw [List.isChain_map]
    exact List.isChain_iff_getElem.mpr fun _ _ => trivial
  · rw [List.head?_map, hb]
    rfl
  · rw [List.getLast?_map, he]
    rfl

theorem mark (c : Char) (h : isLineEnd c = false ∧ isBlank c = false) : Neat [.char c] :=
  solid (List.cons_ne_nil c []) (List.forall_mem_singleton.mpr h)

end Neat

/-! ## documents that show a text -/

/-- a document whose text on one line is known, and which begins and ends with it -/
structure Doc.Shows (cs : List Char) (d : Doc) : Prop where
  neat : Neat d.pieces
  chars : chars d.pieces = cs

/-- documents that each show the text in its place -/
structure Doc.ShowsAll (texts : List (List Char)) (ds : List Doc) : Prop where
  neat : ∀ d ∈ ds, Neat d.pieces
  chars : (ds.map fun d => Reflow.chars d.pieces) = texts

namespace Doc

theorem ShowsAll.append {texts texts' : List (List Char)} {ds ds' : List Doc}
    (h : ShowsAll texts ds) (h' : ShowsAll texts' ds') :
    ShowsAll (texts ++ texts') (ds ++ ds') := by
  refine ⟨List.forall_mem_append.mpr ⟨h.neat, h'.neat⟩, ?_⟩
  rw [List.map_append, h.chars, h'.chars]

theorem pieces_join (sep d : Doc) (ds : List Doc) :
    (join sep (d :: ds)).pieces = d.pieces ++ ds.flatMap fun e => sep.pieces ++ e.pieces := by
  rw [join, intersperse_cons, pieces, piecesAll_eq, List.flatMap_cons, List.flatMap_assoc]
  simp only [List.flatMap_cons, List.flatMap_nil, List.append_nil]

theorem chars_piecesAll (ds : List Doc) :
    Reflow.chars (piecesAll ds) = (ds.map fun d => Reflow.chars d.pieces).flatten := by
  rw [piecesAll_eq, Reflow.chars, List.filterMap_flatMap, List.flatMap_def]
  rfl

theorem chars_join (sep : Doc) (ds : List Doc) :
    Reflow.chars (join sep ds).pieces =
      (Reflow.chars sep.pieces).intercalate (ds.map fun d => Reflow.chars d.pieces) := by
  rw [join, pieces, chars_piecesAll, map_intersperse]
  rfl

theorem chars_zipWith {f : Doc → Doc → Doc} {g : List Char → List Char → List Char}
    (h : ∀ d e, Reflow.chars (f d e).pieces = g (Reflow.chars d.pieces) (Reflow.chars e.pieces))
    (ds es : List Doc) :
    ((ds.zipWith f es).map fun d => Reflow.chars d.pieces) =
      List.zipWith g (ds.map fun d => Reflow.chars d.pieces)
        (es.map fun d => Reflow.chars d.pieces) := by
  rw [List.map_zipWith, List.zipWith_map]
  congr 1
  funext d e
  exact h d e

/-- more parts, each after a comma -/
theorem neat_more {ps : List Piece} {ds : List Doc} (hp : Neat ps) (hd : ∀ d ∈ ds, Neat d.pieces) :
    Neat (ps ++ ds.flatMap fun e => (text ", ").pieces ++ e.pieces) := by
  refine hp.flatMap fun e he ps hps => ?_
  have hcomma : Neat (ps ++ [.char ',']) := hps.append (Neat.mark ',' (by decide))
  have hglue := hcomma.glue (.inr rfl) (hd e he)
  rwa [List.append_assoc] at hglue

/-- parts between commas, after something else -/
theorem neat_listed {ps : List Piece} {ds : List Doc} (hp : Neat ps)
    (hd : ∀ d ∈ ds, Neat d.pieces) : Neat (ps ++ (join (text ", ") ds).pieces) := by
  cases ds with
  | nil => rwa [show (join (text ", ") []).pieces = [] from rfl, List.append_nil]
  | cons d ds =>
    obtain ⟨hd, hds⟩ := List.forall_mem_cons.mp hd
    rw [pieces_join, ← List.append_assoc]
    exact neat_more (hp.append hd) hds

/-- parts that begin with a seam, with commas between them, and a last seam -/
theorem neat_broken {ps qs : List Piece} {ds : List Doc} (hp : Neat ps) (hq : Neat qs)
    (hd : ∀ d ∈ ds, ∃ es, Neat es ∧ d.pieces = .seam :: es) :
    Neat (ps ++ ((join (text ",") ds).pieces ++ .seam :: qs)) := by
  rw [← List.append_assoc]
  refine Neat.glue (.inl rfl) ?_ hq
  cases ds with
  | nil => rwa [show (join (text ",") []).pieces = [] from rfl, List.append_nil]
  | cons d ds =>
    obtain ⟨⟨es, hes, hpieces⟩, hds⟩ := List.forall_mem_cons.mp hd
    rw [pieces_join, hpieces, ← List.append_assoc]
    refine (hp.glue (.inl rfl) hes).flatMap fun e he ps hps => ?_
    obtain ⟨es, hes, hpieces⟩ := hds e he
    have hcomma : Neat (ps ++ [.char ',']) :=
      hps.append (Neat.mark ',' (by decide))
    have hglue := hcomma.glue (.inl rfl) hes
    rwa [List.append_assoc, ← hpieces] at hglue

end Doc

/-! ## words and symbols -/

/-- a word: characters of names and numbers -/
structure IsWord (cs : List Char) : Prop where
  ne : cs ≠ []
  chars : ∀ c ∈ cs, isNameChar c = true

/-- the blanks, brackets and marks between words -/
def separators : List Char :=
  [' ', '\t', '\n', '\r', '(', ')', '[', ']', '\x7b', '\x7d', ',', ':', '.', '=', '*']

theorem separator_of_mem {c : Char} (h : c ∈ separators) : isNameChar c = false := by
  have hall : ∀ c ∈ separators, isNameChar c = false := List.all_iff_forall_prop.mp (by decide)
  exact hall c h

theorem solid_of_isNameChar {c : Char} (h : isNameChar c = true) :
    isLineEnd c = false ∧ isBlank c = false := by
  have hne : c ∉ separators := fun hsep => by
    rw [separator_of_mem hsep] at h
    cases h
  simp only [separators, List.mem_cons, not_or] at hne
  simp [isLineEnd, isBlank, hne]

theorem IsWord.neat {cs : List Char} (h : IsWord cs) : Neat (cs.map .char) :=
  Neat.solid h.ne fun c hc => solid_of_isNameChar (h.chars c hc)

theorem Node.IsName.word {s : String} (h : Node.IsName s) : IsWord s.toList := by
  refine ⟨fun hnil => ?_, h.chars⟩
  have hfirst := h.first
  rw [hnil] at hfirst
  cases hfirst

theorem isWord_int {n : Int} (hn : 0 ≤ n) : IsWord (toString n).toList := by
  obtain ⟨m, rfl⟩ := Int.eq_ofNat_of_zero_le hn
  have hdigits : (toString (m : Int)).toList = Nat.toDigits 10 m := Nat.toList_repr
  rw [hdigits]
  refine ⟨Nat.toDigits_ne_nil, fun c hc => ?_⟩
  rw [isNameChar, Nat.isDigit_of_mem_toDigits (by decide) (by decide) hc, Bool.or_true]

theorem isWord_constant (value : Option Bool) : IsWord (Node.constantText value) := by
  rcases value with _ | _ | _ <;> exact ⟨by decide, List.all_eq_true.mp (by decide)⟩

theorem Operator.symbol_comparison {op : Operator} (h : op ∈ Operator.comparisons) :
    ∃ symbol, op.symbol? = some symbol ∧ symbol.toList ≠ [] ∧
      ∀ c ∈ symbol.toList, isLineEnd c = false ∧ isBlank c = false := by
  simp only [comparisons, List.mem_cons, List.not_mem_nil, or_false] at h
  rcases h with rfl | rfl | rfl | rfl | rfl | rfl <;>
    exact ⟨_, rfl, by decide, List.all_iff_forall_prop.mp (by decide)⟩

/-! ## printed terms -/

namespace Rule
open Doc

/-- the document of the items of a tuple -/
def itemsDoc : List Doc → Doc
  | [item] => concat [item, text ","]
  | ds => join (text ", ") ds

theorem tuple_cons_ok {inSequence : Bool} {elts : List Printed} {d : Doc} (hne : elts ≠ [])
    (h : tuple inSequence elts = .ok d) : ∃ ds, elts = ds.map .ok ∧
      d = if inSequence then concat [text "(", itemsDoc ds, text ")"] else itemsDoc ds := by
  rw [tuple, if_neg (List.isEmpty_iff.not.mpr hne)] at h
  obtain ⟨ds, hds, h⟩ := map_eq_ok.mp h
  exact ⟨ds, Printed.all_eq_ok.mp hds, h⟩

end Rule

namespace Node
open Doc

/-- the documents of nodes show what the nodes are on one line -/
theorem shows_of_mem {owner : Node} {above : List Node} {field : String} {ns : List Node}
    (ih : ∀ n ∈ ns, ∀ above d, n.printBelow above = .ok d → d.Shows (n.oneLine (inSequence above)))
    {ds : List Doc} (h : printAllBelow above owner field ns = ds.map .ok) :
    ShowsAll (oneLines owner.isSequence ns) ds := by
  have hdocs := printAllBelow_ok h
  rw [oneLines_eq_map]
  clear h
  induction hdocs with
  | nil => exact ⟨List.forall_mem_nil _, rfl⟩
  | @cons n d ns ds hd _ ihrest =>
    obtain ⟨hn, hns⟩ := List.forall_mem_cons.mp ih
    obtain ⟨hneat, htexts⟩ := ihrest hns
    have hshows := hn _ d hd
    exact ⟨List.forall_mem_cons.mpr ⟨hshows.neat, hneat⟩, congrArg₂ (· :: ·) hshows.chars htexts⟩

section
variable {texts values : List (List Char)} {ds vs : List Doc}

/-- the items of a tuple, of which there are some -/
theorem shows_items (hne : ds ≠ []) (h : ShowsAll texts ds) :
    (Rule.itemsDoc ds).Shows (items texts) := by
  obtain ⟨hneat, rfl⟩ := h
  match ds, hne with
  | [d], _ =>
    have hd := List.forall_mem_singleton.mp hneat
    have hcomma := hd.append (Neat.mark ',' (by decide))
    refine ⟨by simpa [Rule.itemsDoc, pieces, piecesAll] using hcomma, ?_⟩
    simp only [Rule.itemsDoc, pieces, piecesAll, chars_append]
    rfl
  | d :: e :: ds, _ =>
    obtain ⟨hd, hrest⟩ := List.forall_mem_cons.mp hneat
    refine ⟨?_, ?_⟩
    · rw [Rule.itemsDoc, pieces_join]
      · exact neat_more hd hrest
      · simp
    · rw [Rule.itemsDoc, chars_join]
      · rfl
      · simp

theorem shows_bracketed {cs : List Char} {d : Doc} (h : d.Shows cs) :
    (concat [text "(", d, text ")"]).Shows ('(' :: (cs ++ [')'])) := by
  have hopen := (Neat.mark '(' (by decide)).append h.neat
  have hclosed := hopen.append (Neat.mark ')' (by decide))
  refine ⟨by simpa [pieces, piecesAll] using hclosed, ?_⟩
  simp only [pieces, piecesAll, chars_append, chars_text, h.chars]
  rfl

theorem shows_call {name : String} (hname : IsWord name.toList) (h : ShowsAll texts ds) :
    (concat [text name, text "(", join (text ", ") ds, text ")"]).Shows
      (name.toList ++ '(' :: (commas texts ++ [')'])) := by
  have hopen := hname.neat.append (Neat.mark '(' (by decide))
  have hclosed := (neat_listed hopen h.neat).append (Neat.mark ')' (by decide))
  refine ⟨by simpa [pieces, piecesAll] using hclosed, ?_⟩
  simp only [pieces, piecesAll, chars_append, chars_text, chars_join, h.chars]
  rfl

theorem shows_keyword {name : Option String} {cs : List Char} {v : Doc}
    (hname : ∀ s ∈ name, IsName s) (h : v.Shows cs) :
    (concat (name.elim [text "**"] (fun name => [text name, text "="]) ++ [v])).Shows
      (label name ++ cs) := by
  have hlabel : Neat ((label name).map .char) := by
    cases name with
    | none => exact (Neat.mark '*' (by decide)).append (Neat.mark '*' (by decide))
    | some name =>
      have hneat := (hname name rfl).word.neat.append (Neat.mark '=' (by decide))
      rwa [show [Piece.char '='] = ['='].map Piece.char from rfl, ← List.map_append] at hneat
  have hpieces :
      (concat (name.elim [text "**"] (fun name => [text name, text "="]) ++ [v])).pieces =
        (label name).map .char ++ v.pieces := by
    cases name <;> simp [pieces, piecesAll, label]
  refine ⟨hpieces ▸ hlabel.append h.neat, ?_⟩
  rw [hpieces, chars_append, chars_text, h.chars]

theorem shows_list (h : ShowsAll texts ds) :
    (concat [text "[", join (text ", ") ds, text "]"]).Shows ('[' :: (commas texts ++ [']'])) := by
  have hopen : Neat [.char '['] := Neat.mark '[' (by decide)
  have hclosed := (neat_listed hopen h.neat).append (Neat.mark ']' (by decide))
  refine ⟨by simpa [pieces, piecesAll] using hclosed, ?_⟩
  simp only [pieces, piecesAll, chars_append, chars_text, chars_join, h.chars]
  rfl

theorem shows_dict (hkeys : ShowsAll texts ds) (hvalues : ShowsAll values vs) :
    (group (concat [text "\x7b",
      indent (join (text ",")
        (ds.zipWith (fun key value => concat [softline, key, text ": ", value]) vs)),
      softline, text "\x7d"]) false).Shows
        ('\x7b' :: ([','].intercalate
          (List.zipWith (fun key value => key ++ ':' :: ' ' :: value) texts values) ++ ['\x7d'])) := by
  have hentry (key value : Doc) : (concat [softline, key, text ": ", value]).pieces =
      .seam :: (key.pieces ++ .char ':' :: .char ' ' :: value.pieces) := by
    simp [pieces, piecesAll, softline]
  have hentries : ∀ d ∈ ds.zipWith (fun key value => concat [softline, key, text ": ", value]) vs,
      ∃ es, Neat es ∧ d.pieces = .seam :: es := by
    intro d hd
    obtain ⟨k, hk, v, hv, rfl⟩ := exists_of_mem_zipWith hd
    have hcolon := (hkeys.neat k hk).append (Neat.mark ':' (by decide))
    have hglue := hcolon.glue (.inr rfl) (hvalues.neat v hv)
    rw [List.append_assoc] at hglue
    exact ⟨_, hglue, hentry k v⟩
  have hopen : Neat [.char '\x7b'] := Neat.mark '\x7b' (by decide)
  have hneat := neat_broken hopen (Neat.mark '\x7d' (by decide)) hentries
  refine ⟨by simpa [pieces, piecesAll, softline] using hneat, ?_⟩
  have hchars := chars_zipWith (f := fun key value => concat [softline, key, text ": ", value])
    (g := fun key value => key ++ ':' :: ' ' :: value)
    (fun k v => by rw [hentry]; exact chars_append _ _) ds vs
  simp only [pieces, piecesAll, chars_append, chars_text, chars_join, hchars, hkeys.chars,
    hvalues.chars]
  rfl

theorem shows_access {cs : List Char} {v : Doc} {attr : String} (hattr : IsWord attr.toList)
    (h : v.Shows cs) : (concat [v, text ".", text attr]).Shows (cs ++ '.' :: attr.toList) := by
  have hdot := h.neat.append (Neat.mark '.' (by decide))
  refine ⟨by simpa [pieces, piecesAll] using hdot.append hattr.neat, ?_⟩
  simp only [pieces, piecesAll, chars_append, chars_text, h.chars]
  simp [chars]

theorem shows_compare {cs : List Char} {l : Doc} (hleft : l.Shows cs) (hops : ShowsAll texts ds)
    (hright : ShowsAll values vs) :
    (concat (l :: ds.zipWith (fun op c => concat [text " ", op, text " ", c]) vs)).Shows
      (cs ++ (List.zipWith (fun op c => ' ' :: (op ++ ' ' :: c)) texts values).flatten) := by
  have hpair (op c : Doc) : (concat [text " ", op, text " ", c]).pieces =
      .char ' ' :: (op.pieces ++ .char ' ' :: c.pieces) := by
    simp [pieces, piecesAll]
  have hneat : Neat (l.pieces ++
      (ds.zipWith (fun op c => concat [text " ", op, text " ", c]) vs).flatMap pieces) := by
    refine hleft.neat.flatMap fun d hd ps hps => ?_
    obtain ⟨o, ho, c, hc, rfl⟩ := exists_of_mem_zipWith hd
    rw [hpair]
    have hop := hps.glue (.inr rfl) (hops.neat o ho)
    have hglue := hop.glue (.inr rfl) (hright.neat c hc)
    rwa [List.append_assoc] at hglue
  refine ⟨by rwa [pieces, piecesAll, piecesAll_eq], ?_⟩
  have hchars := chars_zipWith (f := fun op c => concat [text " ", op, text " ", c])
    (g := fun op c => ' ' :: (op ++ ' ' :: c))
    (fun o c => by rw [hpair]; exact congrArg (' ' :: ·) (chars_append _ _)) ds vs
  rw [pieces, piecesAll, chars_append, chars_piecesAll, hleft.chars, hchars, hops.chars,
    hright.chars]

end

theorem Term.shows {role : Role} {n : Node} (h : Term role n) :
    ∀ above d, n.printBelow above = .ok d → d.Shows (n.oneLine (inSequence above)) := by
  induction h with
  | ident hid =>
    intro above d hd
    cases hd
    exact ⟨hid.word.neat, chars_text _⟩
  | @number offset n hn =>
    intro above d hd
    obtain ⟨s, hs, rfl⟩ := Rule.number_ok hd
    have hint : toString n = s := by
      rw [Number.text?] at hs
      split at hs
      · exact Option.some.inj hs
      · cases hs
    rw [oneLine, hint]
    exact ⟨(hint ▸ isWord_int hn).neat, chars_text _⟩
  | @constant offset value =>
    intro above d hd
    have hword := isWord_constant value
    rcases value with _ | _ | _ <;> cases hd <;> exact ⟨hword.neat, rfl⟩
  | call hid _ _ ihargs ihkeywords =>
    intro above d hd
    obtain ⟨place, id, as, ks, hcallee, has, hks, rfl⟩ := Rule.call_ok hd
    cases hcallee
    exact shows_call hid.word ((shows_of_mem ihargs has).append (shows_of_mem ihkeywords hks))
  | keyword hname _ ih =>
    intro above d hd
    obtain ⟨v, hv, rfl⟩ := Rule.keyword_ok hd
    exact shows_keyword hname (ih _ v (present_eq_ok hv))
  | @tuple offset elts _ ih =>
    intro above d hd
    cases elts with
    | nil =>
      cases hd
      exact ⟨(Neat.mark '(' (by decide)).append (Neat.mark ')' (by decide)), rfl⟩
    | cons n elts =>
      obtain ⟨ds, hds, rfl⟩ := Rule.tuple_cons_ok (List.cons_ne_nil _ _) hd
      have hne : ds ≠ [] := by
        rintro rfl
        cases hds
      have hitems := shows_items hne (shows_of_mem ih hds)
      rw [oneLine, List.isEmpty_cons, if_neg Bool.false_ne_true]
      show Shows _ (if inSequence above then _ else _)
      cases inSequence above with
      | false => exact hitems
      | true => exact shows_bracketed hitems
  | list _ ih =>
    intro above d hd
    obtain ⟨ds, hds, rfl⟩ := Rule.list_ok hd
    exact shows_list (shows_of_mem ih hds)
  | dict _ _ _ ihkeys ihvalues =>
    intro above d hd
    obtain ⟨ks, vs, hks, hvs, rfl⟩ := Rule.dict_ok hd
    exact shows_dict (shows_of_mem ihkeys hks) (shows_of_mem ihvalues hvs)
  | access _ hattr ih =>
    intro above d hd
    obtain ⟨v, hv, rfl⟩ := Rule.access_ok hd
    exact shows_access hattr.word (ih _ v (present_eq_ok hv))
  | compare _ _ _ _ _ ihleft ihops ihcomparators =>
    intro above d hd
    obtain ⟨l, os, cs, hl, hos, hcs, rfl⟩ := Rule.compare_ok hd
    exact shows_compare (ihleft _ l (present_eq_ok hl)) (shows_of_mem ihops hos)
      (shows_of_mem ihcomparators hcs)
  | operator hop =>
    intro above d hd
    obtain ⟨symbol, hsymbol, rfl⟩ := Rule.operator_ok hd
    obtain ⟨symbol', hsymbol', hne, hchars⟩ := Operator.symbol_comparison hop
    rw [oneLine, hsymbol, Option.getD_some]
    obtain rfl : symbol' = symbol := Option.some.inj (hsymbol'.symm.trans hsymbol)
    exact ⟨Neat.solid hne hchars, chars_text _⟩

/-- the lines of a printed term, put together again, are its text on one line -/
theorem Term.oneLine_of_print {role : Role} {n : Node} (h : Term role n) {d : Doc}
    (hd : n.print = .ok d) (o : Options) : Text.unbroken (d.layout o) = n.oneLine false := by
  have hshows := h.shows [] d hd
  obtain ⟨c, hc, hblank⟩ := hshows.neat.first
  have htidy : Tidy (.seam :: d.pieces) := by
    refine ⟨List.isChain_cons.mpr ⟨?_, hshows.neat.tidy.apart⟩,
      List.forall_mem_cons.mpr ⟨trivial, hshows.neat.tidy.plain⟩⟩
    rw [hc]
    rintro _ ⟨⟩
    exact hblank
  exact (unbroken_layout o htidy).trans hshows.chars

end Node

end Reflow
