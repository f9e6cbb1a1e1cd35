import Reflow.Proofs.Nesting
import Reflow.Proofs.Numerals
import Reflow.Proofs.RuleDocuments

/-!
# Expressions end no lines

Whatever is printed for an expression, all brackets in it are closed again, and a line can only end
in it between brackets.

* `Doc.Keeps`                       a document that leaves a reader as it was;
* `Doc.keeps_bracketed`             a line may end between brackets;
* `Number.keeps_text`               numbers, with the brackets of a complex one;
* `Node.Phrase`                     the nodes of an expression, each in its place;
* `Node.Phrase.keeps`               so what is printed for them leaves a reader as it was;
* `Node.ParameterList.keeps`        and so do parameters, between brackets.
-/

namespace Reflow

open Source (Bracket)

/-! ## what leaves a reader as it was -/

def Nesting.Unquoted (s : Nesting) : Prop := s.quoted = false

def Nesting.Inside (s : Nesting) : Prop := s.quoted = false ∧ s.opened ≠ []

namespace Doc

/-- wherever a reader is that is in one of the states, it keeps the same after the document -/
def Keeps (P : Nesting → Prop) (d : Doc) : Prop := ∀ mode s, P s → d.scan mode s = some s

section
variable {P : Nesting → Prop} {d sep : Doc} {ds : List Doc}

theorem Keeps.inside (h : d.Keeps Nesting.Unquoted) : d.Keeps Nesting.Inside :=
  fun mode s hs => h mode s hs.1

theorem scanAll_keeps (h : ∀ d ∈ ds, d.Keeps P) (rest : List Doc) (mode : Mode) {s : Nesting}
    (hs : P s) : scanAll (ds ++ rest) mode s = scanAll rest mode s := by
  induction ds with
  | nil => rfl
  | cons d ds ih =>
    obtain ⟨hd, hds⟩ := List.forall_mem_cons.mp h
    rw [List.cons_append, scanAll, hd mode s hs]
    exact ih hds

theorem keeps_concat (h : ∀ d ∈ ds, d.Keeps P) : (concat ds).Keeps P := by
  intro mode s hs
  have hall := scanAll_keeps h [] mode hs
  rw [List.append_nil] at hall
  exact hall

theorem keeps_nil : (concat []).Keeps P := fun _ _ _ => rfl

theorem keeps_cons (hd : d.Keeps P) (h : (concat ds).Keeps P) : (concat (d :: ds)).Keeps P := by
  intro mode s hs
  rw [scan, scanAll, hd mode s hs]
  exact h mode s hs

theorem keeps_join (hsep : sep.Keeps P) (h : ∀ d ∈ ds, d.Keeps P) : (join sep ds).Keeps P := by
  apply keeps_concat
  intro d hd
  rcases mem_intersperse hd with rfl | hd
  · exact hsep
  · exact h d hd

theorem keeps_group {shouldBreak : Bool} (h : d.Keeps P) : (group d shouldBreak).Keeps P :=
  fun _ s hs => h .flat s hs

theorem keeps_indent (h : d.Keeps P) : (indent d).Keeps P := fun mode s hs => h mode s hs

theorem keeps_plain {t : String} (h : Nesting.AllPlain t.toList) : (text t).Keeps P :=
  fun _ s _ => Nesting.read_plain h s

/-- a line that ends between brackets is not counted -/
theorem keeps_linebreak (soft hard : Bool) : (linebreak soft hard).Keeps Nesting.Inside := by
  intro mode s hs
  have hfeed : s.next '\n' = some s := by
    rw [Nesting.next_feed, if_neg fun h => hs.2 h.2]
  rw [scan, hfeed, if_pos rfl, ite_self]

end

theorem scanAll_bracketed (b : Bracket) {before after : String} (hbefore : before.toList = [b.opening])
    (hafter : after.toList = [b.closing]) (ds rest : List Doc)
    (h : ∀ d ∈ ds, d.Keeps Nesting.Inside) (mode : Mode) {s : Nesting} (hs : s.Unquoted) :
    scanAll (text before :: (ds ++ text after :: rest)) mode s = scanAll rest mode s := by
  obtain ⟨quoted, opened, feeds⟩ := s
  obtain rfl : quoted = false := hs
  have hinside : Nesting.Inside ⟨false, b :: opened, feeds⟩ := ⟨rfl, List.cons_ne_nil b opened⟩
  have hopening : (text before).scan mode ⟨false, opened, feeds⟩ =
      some ⟨false, b :: opened, feeds⟩ := by
    rw [scan, hbefore, Nesting.read, List.foldlM_cons, Nesting.next_opening]
    rfl
  have hclosing : (text after).scan mode ⟨false, b :: opened, feeds⟩ =
      some ⟨false, opened, feeds⟩ := by
    rw [scan, hafter, Nesting.read, List.foldlM_cons, Nesting.next_closing]
    rfl
  rw [scanAll, hopening, Option.bind_some, scanAll_keeps h _ mode hinside, scanAll, hclosing,
    Option.bind_some]

theorem keeps_bracketed (b : Bracket) {before after : String} (hbefore : before.toList = [b.opening])
    (hafter : after.toList = [b.closing]) (ds : List Doc) (h : ∀ d ∈ ds, d.Keeps Nesting.Inside) :
    (concat (text before :: (ds ++ [text after]))).Keeps Nesting.Unquoted :=
  fun mode _ hs => scanAll_bracketed b hbefore hafter ds [] h mode hs

theorem keeps_quoted {t : String} (h : '"' ∉ t.toList) :
    (text ("\"" ++ t ++ "\"")).Keeps Nesting.Unquoted := by
  rintro mode ⟨quoted, opened, feeds⟩ hs
  obtain rfl : quoted = false := hs
  have hinside : Nesting.read ⟨true, opened, feeds⟩ t.toList = some ⟨true, opened, feeds⟩ := by
    apply Nesting.read_eq_self
    intro c hc
    apply Nesting.next_quoted
    rintro rfl
    exact h hc
  rw [scan, String.toList_append, String.toList_append, Nesting.read_append, Nesting.read_append]
  show ((some (⟨true, opened, feeds⟩ : Nesting)).bind (Nesting.read · t.toList)).bind
    (Nesting.read · ['"']) = _
  rw [Option.bind_some, hinside]
  rfl

end Doc

/-! ## numbers and operators -/

namespace Nesting

theorem plain_of_isDigit {c : Char} (h : c.isDigit = true) : Plain c := by
  intro hc
  simp only [brackets, List.flatMap_cons, List.flatMap_nil, Bracket.opening, Bracket.closing,
    List.cons_append, List.nil_append, List.append_nil, List.mem_cons, List.not_mem_nil,
    or_false] at hc
  rcases hc with rfl | rfl | rfl | rfl | rfl | rfl | rfl | rfl <;> exact absurd h (by decide)

/-- a number tells the reader nothing, but for the brackets of a complex one -/
theorem plain_numerals {cs : List Char} (h : Numerals cs) : AllPlain cs := by
  have hmarks : AllPlain numeralMarks := by decide
  intro c hc
  rcases h c hc with hdigit | hmark
  · exact plain_of_isDigit hdigit
  · exact hmarks c hmark

end Nesting

namespace Number
open Nesting

theorem read_complexText (re im : Binary64) {s : Nesting} (hs : s.Unquoted) :
    s.read (complexText re im).toList = some s := by
  rcases complexText_cases re im with ⟨cs, ht, hcs⟩ | ⟨cs, ht, hcs⟩
  · rw [ht]
    exact read_plain (plain_numerals (hcs.append (.cons (.inr (by decide)) .nil))) s
  · obtain ⟨quoted, opened, feeds⟩ := s
    obtain rfl : quoted = false := hs
    have hinner : read ⟨false, .round :: opened, feeds⟩ cs =
        some ⟨false, .round :: opened, feeds⟩ :=
      read_plain (plain_numerals hcs) _
    rw [ht, show '(' = Bracket.round.opening from rfl, Nesting.read, List.foldlM_cons, next_opening]
    show read ⟨false, .round :: opened, feeds⟩ (cs ++ [')']) = _
    rw [read_append, hinner]
    exact next_closing .round opened feeds

theorem keeps_text {n : Number} {t : String} (h : n.text? = some t) :
    (Doc.text t).Keeps Nesting.Unquoted := by
  cases n with
  | int n =>
    rw [text?] at h
    split at h
    · cases h
      exact Doc.keeps_plain (plain_numerals (numerals_int n))
    · cases h
  | float x =>
    cases h
    exact Doc.keeps_plain (plain_numerals (x.numerals_text true))
  | complex re im =>
    cases h
    exact fun _ _ hs => read_complexText re im hs

end Number

theorem Operator.plain_symbol {op : Operator} {symbol : String} (h : op.symbol? = some symbol) :
    Nesting.AllPlain symbol.toList := by
  cases op <;> cases h <;> decide

/-! ## expressions -/

namespace Node

/-- the places in an expression, and in what is not a statement -/
inductive Role where
  | expression
  | argument
  | operator
  | parameter

/-- the nodes of expressions, each in its place, with names that hold no bracket, quote or line feed
and texts that hold no quote -/
inductive Phrase : Role → Node → Prop where
  | ident {offset id} (hid : Nesting.AllPlain id.toList) :
    Phrase .expression (.ident offset id)
  | string {offset s} (hs : '"' ∉ s.toList) : Phrase .expression (.string offset s)
  | number {offset n} : Phrase .expression (.number offset n)
  | constant {offset value} : Phrase .expression (.constant offset value)
  | call {offset callee args keywords} (hcallee : Phrase .expression callee)
    (hargs : ∀ n ∈ args, Phrase .expression n) (hkeywords : ∀ n ∈ keywords, Phrase .argument n) :
    Phrase .expression (.call offset callee args keywords)
  | keyword {offset name value} (hname : ∀ s ∈ name, Nesting.AllPlain s.toList)
    (hvalue : Phrase .expression value) : Phrase .argument (.keyword offset name value)
  | tuple {offset elts} (helts : ∀ n ∈ elts, Phrase .expression n) :
    Phrase .expression (.tuple offset elts)
  | list {offset elts} (helts : ∀ n ∈ elts, Phrase .expression n) :
    Phrase .expression (.list offset elts)
  | dict {offset keys values} (hkeys : ∀ n ∈ keys, Phrase .expression n)
    (hvalues : ∀ n ∈ values, Phrase .expression n) : Phrase .expression (.dict offset keys values)
  | access {offset value attr} (hvalue : Phrase .expression value)
    (hattr : Nesting.AllPlain attr.toList) : Phrase .expression (.access offset value attr)
  | compare {offset left ops comparators} (hleft : Phrase .expression left)
    (hops : ∀ n ∈ ops, Phrase .operator n) (hcomparators : ∀ n ∈ comparators, Phrase .expression n) :
    Phrase .expression (.compare offset left ops comparators)
  | operator {offset op} : Phrase .operator (.operator offset op)
  | parameter {offset name} (hname : Nesting.AllPlain name.toList) :
    Phrase .parameter (.parameter offset name)

/-- the parameters of a function, of which some may be missing -/
inductive ParameterList : Node → Prop where
  | mk {offset posOnly params defaults vararg kwOnly kwDefaults kwarg}
    (hposOnly : ∀ n ∈ posOnly, Phrase .parameter n) (hparams : ∀ n ∈ params, Phrase .parameter n)
    (hdefaults : ∀ n ∈ defaults, Phrase .expression n)
    (hvararg : vararg ≠ nothing → Phrase .parameter vararg)
    (hkwOnly : ∀ n ∈ kwOnly, Phrase .parameter n)
    (hkwDefaults : ∀ n ∈ kwDefaults, Phrase .expression n)
    (hkwarg : kwarg ≠ nothing → Phrase .parameter kwarg) :
    ParameterList (.parameters offset posOnly params defaults vararg kwOnly kwDefaults kwarg)

open Doc Nesting

theorem keeps_of_mem {owner : Node} {above : List Node} {field : String} {ns : List Node}
    (ih : ∀ n ∈ ns, ∀ above d, n.printBelow above = .ok d → d.Keeps Unquoted) {ds : List Doc}
    (h : printAllBelow above owner field ns = ds.map .ok) : ∀ d ∈ ds, d.Keeps Unquoted := by
  intro d hd
  obtain ⟨n, hn, hd⟩ := exists_of_mem h hd
  exact ih n hn (owner :: above) d hd

/-- parts between commas -/
theorem keeps_listed {owner : Node} {above : List Node} {field : String} {ns : List Node}
    (ih : ∀ n ∈ ns, ∀ above d, n.printBelow above = .ok d → d.Keeps Unquoted) {ds : List Doc}
    (h : printAllBelow above owner field ns = ds.map .ok) :
    (join (text ", ") ds).Keeps Unquoted :=
  keeps_join (keeps_plain (by decide)) (keeps_of_mem ih h)

theorem Phrase.keeps {role : Role} {n : Node} (h : Phrase role n) :
    ∀ above d, n.printBelow above = .ok d → d.Keeps Unquoted := by
  induction h with
  | ident hid =>
    intro above d hd
    cases hd
    exact keeps_plain hid
  | string hs =>
    intro above d hd
    cases hd
    exact keeps_quoted hs
  | number =>
    intro above d hd
    obtain ⟨s, hs, rfl⟩ := Rule.number_ok hd
    exact Number.keeps_text hs
  | @constant offset value =>
    intro above d hd
    rcases value with _ | _ | _ <;> cases hd <;> exact keeps_plain (by decide)
  | call hcallee hargs hkeywords _ ihargs ihkeywords =>
    intro above d hd
    obtain ⟨offset, id, as, ks, rfl, has, hks, rfl⟩ := Rule.call_ok hd
    obtain ⟨hid⟩ := hcallee
    have hitems : ∀ d ∈ as ++ ks, d.Keeps Unquoted :=
      List.forall_mem_append.mpr ⟨keeps_of_mem ihargs has, keeps_of_mem ihkeywords hks⟩
    have hjoin : (join (text ", ") (as ++ ks)).Keeps Unquoted :=
      keeps_join (keeps_plain (by decide)) hitems
    exact keeps_cons (keeps_plain hid)
      (keeps_bracketed .round rfl rfl [_] (List.forall_mem_singleton.mpr hjoin.inside))
  | @keyword offset name value hname _ ih =>
    intro above d hd
    obtain ⟨v, hv, rfl⟩ := Rule.keyword_ok hd
    have hvalue : (concat [v]).Keeps Unquoted :=
      keeps_cons (ih _ v (present_eq_ok hv)) keeps_nil
    cases name with
    | none => exact keeps_cons (keeps_plain (by decide)) hvalue
    | some name =>
      exact keeps_cons (keeps_plain (hname name rfl)) (keeps_cons (keeps_plain (by decide)) hvalue)
  | tuple _ ih =>
    intro above d hd
    rcases Rule.tuple_ok hd with rfl | ⟨ds, items, hds, hitems, rfl⟩
    · rintro mode ⟨quoted, opened, feeds⟩ hs
      obtain rfl : quoted = false := hs
      rfl
    · have hkeeps : items.Keeps Unquoted := by
        rcases hitems with rfl | ⟨item, hitem, rfl⟩
        · exact keeps_listed ih hds
        · exact keeps_cons (keeps_of_mem ih hds item hitem)
            (keeps_cons (keeps_plain (by decide)) keeps_nil)
      split
      · exact keeps_bracketed .round rfl rfl [_] (List.forall_mem_singleton.mpr hkeeps.inside)
      · exact hkeeps
  | list _ ih =>
    intro above d hd
    obtain ⟨ds, hds, rfl⟩ := Rule.list_ok hd
    exact keeps_bracketed .square rfl rfl [_]
      (List.forall_mem_singleton.mpr (keeps_listed ih hds).inside)
  | dict _ _ ihkeys ihvalues =>
    intro above d hd
    obtain ⟨ks, vs, hks, hvs, rfl⟩ := Rule.dict_ok hd
    have hpairs : ∀ d ∈ ks.zipWith (fun key value => concat [softline, key, text ": ", value]) vs,
        d.Keeps Inside := by
      intro d hd
      obtain ⟨k, hk, v, hv, rfl⟩ := exists_of_mem_zipWith hd
      have hkey := (keeps_of_mem ihkeys hks k hk).inside
      have hvalue := (keeps_of_mem ihvalues hvs v hv).inside
      exact keeps_cons (keeps_linebreak true false) (keeps_cons hkey
        (keeps_cons (keeps_plain (by decide)) (keeps_cons hvalue keeps_nil)))
    have hjoin : (indent (join (text ",")
        (ks.zipWith (fun key value => concat [softline, key, text ": ", value]) vs))).Keeps Inside :=
      keeps_indent (keeps_join (keeps_plain (by decide)) hpairs)
    exact keeps_group (keeps_bracketed .curly rfl rfl [_, _] (List.forall_mem_cons.mpr
      ⟨hjoin, List.forall_mem_singleton.mpr (keeps_linebreak true false)⟩))
  | access _ hattr ih =>
    intro above d hd
    obtain ⟨v, hv, rfl⟩ := Rule.access_ok hd
    exact keeps_cons (ih _ v (present_eq_ok hv)) (keeps_cons (keeps_plain (by decide))
      (keeps_cons (keeps_plain hattr) keeps_nil))
  | compare _ _ _ ihleft ihops ihcomparators =>
    intro above d hd
    obtain ⟨l, os, cs, hl, hos, hcs, rfl⟩ := Rule.compare_ok hd
    refine keeps_cons (ihleft _ l (present_eq_ok hl)) (keeps_concat ?_)
    intro d hd
    obtain ⟨o, ho, c, hc, rfl⟩ := exists_of_mem_zipWith hd
    have hop := keeps_of_mem ihops hos o ho
    have hcomparator := keeps_of_mem ihcomparators hcs c hc
    exact keeps_cons (keeps_plain (by decide)) (keeps_cons hop (keeps_cons (keeps_plain (by decide))
      (keeps_cons hcomparator keeps_nil)))
  | operator =>
    intro above d hd
    obtain ⟨symbol, hsymbol, rfl⟩ := Rule.operator_ok hd
    exact keeps_plain (Operator.plain_symbol hsymbol)
  | parameter hname =>
    intro above d hd
    cases hd
    exact keeps_plain hname

/-- a line may end between two parameters, which stand between brackets -/
theorem ParameterList.keeps {n : Node} (h : ParameterList n) {above : List Node} {d : Doc}
    (hd : n.printBelow above = .ok d) : d.Keeps Inside := by
  obtain ⟨hposOnly, hparams, hdefaults, hvararg, hkwOnly, hkwDefaults, hkwarg⟩ := h
  have hphrases {role : Role} {ns : List Node} (h : ∀ n ∈ ns, Phrase role n) :
      ∀ n ∈ ns, ∀ above d, n.printBelow above = .ok d → d.Keeps Unquoted :=
    fun n hn => (h n hn).keeps
  -- what is missing has no document
  have hmissing {n : Node} (h : n ≠ nothing → Phrase .parameter n) :
      ∀ above d, n.printBelow above = .ok d → d.Keeps Unquoted := by
    intro above d hd
    have hne : n ≠ nothing := by
      rintro rfl
      cases hd
    exact (h hne).keeps above d hd
  obtain ⟨es, rfl, hes⟩ := parameters_ok (P := fun d => d.Keeps Unquoted)
    (forall_children_parameters.mpr ⟨hmissing hvararg, hmissing hkwarg, hphrases hposOnly,
      hphrases hparams, hphrases hdefaults, hphrases hkwOnly, hphrases hkwDefaults⟩) hd
  have hcomma : (concat [text ", ", softline]).Keeps Inside :=
    keeps_cons (keeps_plain (by decide)) (keeps_cons (keeps_linebreak true false) keeps_nil)
  apply keeps_join hcomma
  intro e he
  rcases hes e he with rfl | rfl | ⟨p, hp, rfl | rfl | rfl⟩ | ⟨p, v, hp, hv, rfl⟩
  · exact keeps_plain (by decide)
  · exact keeps_plain (by decide)
  · exact keeps_cons hp.inside keeps_nil
  · exact keeps_cons (keeps_plain (by decide)) (keeps_cons hp.inside keeps_nil)
  · exact keeps_cons (keeps_plain (by decide)) (keeps_cons hp.inside keeps_nil)
  · exact keeps_cons hp.inside
      (keeps_cons (keeps_plain (by decide)) (keeps_cons hv.inside keeps_nil))

end Node

end Reflow
