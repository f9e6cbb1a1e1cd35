import Mathlib.Algebra.Ring.Nat
import Reflow.Proofs.Expressions

/-!
# Statements and lines

Outside of brackets a line ends after each statement and after each `else:`, and between two
top-level statements there is an empty line.  No other line ends there, however narrow the page is.

* `Doc.Feeds`                   how many lines end in a document, outside of its brackets;
* `Node.Statement`              the nodes of a statement, each in its place;
* `Node.statements`             the statements in a tree, at all depths;
* `Node.Statement.feeds`        the lines of a statement, with those in its blocks;
* `Node.read_render`            the brackets and lines of a module that is laid out.
-/

namespace Reflow

open Nesting

/-! ## counting lines -/

namespace Doc

/-- outside of brackets, `k` lines end in the document -/
def Feeds (k : Nat) (d : Doc) : Prop :=
  ∀ m, d.scan .broken ⟨false, [], m⟩ = some ⟨false, [], m + k⟩

section
variable {k m j : Nat} {d sep : Doc} {ds : List Doc}

theorem Keeps.feeds (h : d.Keeps Unquoted) : d.Feeds 0 := fun m => h .broken ⟨false, [], m⟩ rfl

theorem feeds_nil : (concat []).Feeds 0 := fun _ => rfl

theorem feeds_cons (hd : d.Feeds k) (hds : (concat ds).Feeds m) :
    (concat (d :: ds)).Feeds (k + m) := by
  intro l
  rw [scan, scanAll, hd l, Option.bind_some, ← Nat.add_assoc]
  exact hds (l + k)

theorem feeds_cons_keeps (hd : d.Keeps Unquoted) (hds : (concat ds).Feeds m) :
    (concat (d :: ds)).Feeds m := by
  have hcons := feeds_cons hd.feeds hds
  rwa [Nat.zero_add] at hcons

theorem feeds_bracketed (b : Source.Bracket) {before after : String}
    (hbefore : before.toList = [b.opening]) (hafter : after.toList = [b.closing]) (ds rest : List Doc)
    (h : ∀ d ∈ ds, d.Keeps Inside) (hrest : (concat rest).Feeds k) :
    (concat (text before :: (ds ++ text after :: rest))).Feeds k := by
  intro m
  have hs : Unquoted ⟨false, [], m⟩ := rfl
  rw [scan, scanAll_bracketed b hbefore hafter ds rest h .broken hs]
  exact hrest m

theorem feeds_line : line.Feeds 1 := fun _ => rfl

theorem feeds_hardline : hardline.Feeds 1 := fun _ => rfl

/-- documents of which each has one line less than it is counted for, each after a separator that
makes up for this and adds `j` -/
theorem feeds_following {α : Type} {lines : α → Nat} {ns : List α} (hsep : sep.Feeds (j + 1))
    (h : List.Forall₂ (fun n d => ∃ k, lines n = k + 1 ∧ d.Feeds k) ns ds) :
    (concat (ds.flatMap fun d => [sep, d])).Feeds ((ns.map lines).sum + j * ns.length) := by
  induction h with
  | nil => exact feeds_nil
  | @cons n d ns ds hd _ ih =>
    obtain ⟨k, hk, hd⟩ := hd
    have hcons := feeds_cons hsep (feeds_cons hd ih)
    have hcount : (j + 1) + (k + ((ns.map lines).sum + j * ns.length)) =
        ((n :: ns).map lines).sum + j * (n :: ns).length := by
      rw [List.map_cons, List.sum_cons, List.length_cons, Nat.mul_succ]
      omega
    rw [hcount] at hcons
    exact hcons

theorem feeds_join {α : Type} {lines : α → Nat} {n : α} {ns : List α} (hsep : sep.Feeds (j + 1))
    (h : List.Forall₂ (fun n d => ∃ k, lines n = k + 1 ∧ d.Feeds k) (n :: ns) ds) :
    ∃ k, ((n :: ns).map lines).sum + j * ns.length = k + 1 ∧ (join sep ds).Feeds k := by
  cases h with
  | @cons _ d _ ds hd hds =>
    obtain ⟨k, hk, hd⟩ := hd
    refine ⟨k + ((ns.map lines).sum + j * ns.length), ?_, ?_⟩
    · rw [List.map_cons, List.sum_cons]
      omega
    · rw [join, intersperse_cons]
      exact feeds_cons hd (feeds_following hsep hds)

theorem feeds_block {α : Type} {lines : α → Nat} {ns : List α} (hne : ns ≠ [])
    (h : List.Forall₂ (fun n d => ∃ k, lines n = k + 1 ∧ d.Feeds k) ns ds) :
    (Rule.blockDoc ds).Feeds (ns.map lines).sum := by
  obtain ⟨n, ns, rfl⟩ := List.exists_cons_of_ne_nil hne
  obtain ⟨k, hk, hjoin⟩ := feeds_join feeds_hardline h
  have hblock := feeds_cons feeds_line (feeds_cons hjoin feeds_nil)
  have hcount : 1 + (k + 0) = ((n :: ns).map lines).sum := by omega
  rw [hcount] at hblock
  exact hblock

theorem feeds_moduleDoc {α : Type} {lines : α → Nat} {ns : List α} (hne : ns ≠ [])
    (h : List.Forall₂ (fun n d => ∃ k, lines n = k + 1 ∧ d.Feeds k) ns ds) :
    (Rule.moduleDoc ds).Feeds ((ns.map lines).sum + (ns.length - 1)) := by
  obtain ⟨n, ns, rfl⟩ := List.exists_cons_of_ne_nil hne
  have hsep : (concat [hardline, hardline]).Feeds (1 + 1) :=
    feeds_cons feeds_hardline (feeds_cons feeds_hardline feeds_nil)
  obtain ⟨k, hk, hjoin⟩ := feeds_join hsep h
  have hmodule := feeds_cons hjoin (feeds_cons feeds_hardline feeds_nil)
  have hcount : k + (1 + 0) = ((n :: ns).map lines).sum + ((n :: ns).length - 1) := by
    rw [List.length_cons]
    omega
  rw [hcount] at hmodule
  exact hmodule

end

end Doc

/-! ## statements -/

namespace Node

/-- the nodes of statements, each in its place; no block is empty, and names hold no bracket, quote
or line feed -/
inductive Statement : Node → Prop where
  | function {offset name params body} (hname : AllPlain name.toList)
    (hparams : ParameterList params) (hne : body ≠ []) (hbody : ∀ n ∈ body, Statement n) :
    Statement (.function offset name params body)
  | classDef {offset name bases body} (hname : AllPlain name.toList)
    (hbases : ∀ n ∈ bases, Phrase .expression n) (hne : body ≠ [])
    (hbody : ∀ n ∈ body, Statement n) : Statement (.classDef offset name bases body)
  | forLoop {offset target iter body orElse} (htarget : Phrase .expression target)
    (hiter : Phrase .expression iter) (hne : body ≠ []) (hbody : ∀ n ∈ body, Statement n)
    (horElse : ∀ n ∈ orElse, Statement n) : Statement (.forLoop offset target iter body orElse)
  | assign {offset targets value} (htargets : ∀ n ∈ targets, Phrase .expression n)
    (hvalue : Phrase .expression value) : Statement (.assign offset targets value)
  | augAssign {offset target op value} (htarget : Phrase .expression target)
    (hop : Phrase .operator op) (hvalue : Phrase .expression value) :
    Statement (.augAssign offset target op value)
  | expression {offset value} (hvalue : Phrase .expression value) :
    Statement (.expression offset value)

mutual
/-- the statements in a tree, at all depths -/
def statements : Node → List Node
  | .module _ body => statementsAll body
  | n@(.function _ _ _ body) => n :: statementsAll body
  | n@(.classDef _ _ _ body) => n :: statementsAll body
  | n@(.forLoop _ _ _ body orElse) => n :: (statementsAll body ++ statementsAll orElse)
  | n@(.assign _ _ _) => [n]
  | n@(.augAssign _ _ _ _) => [n]
  | n@(.expression _ _) => [n]
  | _ => []
def statementsAll : List Node → List Node
  | [] => []
  | n :: ns => n.statements ++ statementsAll ns
end

/-- whether a node is a loop with an `else:` -/
def hasElse : Node → Bool
  | .forLoop _ _ _ _ orElse => !orElse.isEmpty
  | _ => false

/-- the lines that statements end: one for each of them and one for each `else:` -/
def linesOf (ns : List Node) : Nat := ns.length + ns.countP hasElse

def lines (n : Node) : Nat := linesOf n.statements

theorem linesOf_append (ns ms : List Node) : linesOf (ns ++ ms) = linesOf ns + linesOf ms := by
  rw [linesOf, linesOf, linesOf, List.length_append, List.countP_append]
  omega

theorem linesOf_cons (n : Node) (ns : List Node) :
    linesOf (n :: ns) = linesOf ns + (if n.hasElse then 1 else 0) + 1 := by
  rw [linesOf, linesOf, List.length_cons, List.countP_cons]
  omega

theorem sum_lines (ns : List Node) : (ns.map lines).sum = linesOf (statementsAll ns) := by
  induction ns with
  | nil => rfl
  | cons n ns ih =>
    rw [List.map_cons, List.sum_cons, ih, statementsAll, linesOf_append]
    rfl

section
variable {offset : Int} {body : List Node}

theorem lines_function (name : String) (params : Node) :
    (function offset name params body).lines = (body.map lines).sum + 1 := by
  rw [sum_lines, lines, statements, linesOf_cons]
  rfl

theorem lines_classDef (name : String) (bases : List Node) :
    (classDef offset name bases body).lines = (body.map lines).sum + 1 := by
  rw [sum_lines, lines, statements, linesOf_cons]
  rfl

theorem lines_forLoop (target iter : Node) (orElse : List Node) :
    (forLoop offset target iter body orElse).lines =
      (body.map lines).sum + (orElse.map lines).sum + (if orElse.isEmpty then 0 else 1) + 1 := by
  rw [sum_lines, sum_lines, lines, statements, linesOf_cons, linesOf_append]
  cases orElse <;> rfl

end

open Doc

theorem feeds_of_mem {owner : Node} {above : List Node} {field : String} {ns : List Node}
    (ih : ∀ n ∈ ns, ∀ above d, n.printBelow above = .ok d → ∃ k, n.lines = k + 1 ∧ d.Feeds k)
    {ds : List Doc} (h : printAllBelow above owner field ns = ds.map .ok) :
    List.Forall₂ (fun n d => ∃ k, n.lines = k + 1 ∧ d.Feeds k) ns ds :=
  (List.forall₂_and_left _ _).mpr ⟨ih, printAllBelow_ok h⟩ |>.imp
    fun _ d hd => hd.1 (owner :: above) d hd.2

/-- the lines that end in a statement; what ends the last of its lines is not part of it -/
theorem Statement.feeds {n : Node} (h : Statement n) :
    ∀ above d, n.printBelow above = .ok d → ∃ k, n.lines = k + 1 ∧ d.Feeds k := by
  induction h with
  | @function offset name params body hname hparams hne _ ih =>
    intro above d hd
    obtain ⟨p, ds, hp, hds, rfl⟩ := Rule.function_ok hd
    have hp := hparams.keeps (present_eq_ok hp)
    have hbetween : ∀ d ∈ [indent (concat [softline, p]), softline], d.Keeps Inside :=
      List.forall_mem_cons.mpr ⟨keeps_indent (keeps_cons (keeps_linebreak true false)
        (keeps_cons hp keeps_nil)), List.forall_mem_singleton.mpr (keeps_linebreak true false)⟩
    have hlist : (group (concat [text "(", indent (concat [softline, p]), softline, text ")"])
        false).Keeps Unquoted := keeps_group (keeps_bracketed .round rfl rfl _ hbetween)
    have hblock := feeds_block hne (feeds_of_mem ih hds)
    refine ⟨_, lines_function name params, ?_⟩
    exact feeds_cons_keeps (keeps_plain (by decide)) (feeds_cons_keeps (keeps_plain hname)
      (feeds_cons_keeps hlist (feeds_cons_keeps (keeps_plain (by decide))
        (feeds_cons hblock feeds_nil))))
  | @classDef offset name bases body hname hbases hne _ ih =>
    intro above d hd
    obtain ⟨bs, ds, hbs, hds, rfl⟩ := Rule.classDef_ok hd
    have hcolon : (text ":").Keeps Unquoted := keeps_plain (by decide)
    have hjoin : (join (text ",") bs).Keeps Unquoted := keeps_join (keeps_plain (by decide))
      (keeps_of_mem (fun n hn => (hbases n hn).keeps) hbs)
    have hblock := feeds_block hne (feeds_of_mem ih hds)
    have hrest := feeds_cons_keeps hcolon (feeds_cons hblock feeds_nil)
    refine ⟨_, lines_classDef name bases, ?_⟩
    split
    · exact feeds_cons_keeps (keeps_plain (by decide)) (feeds_cons_keeps (keeps_plain hname) hrest)
    · exact feeds_cons_keeps (keeps_plain (by decide)) (feeds_cons_keeps (keeps_plain hname)
        (feeds_bracketed .round rfl rfl [_] _ (List.forall_mem_singleton.mpr hjoin.inside) hrest))
  | @forLoop offset target iter body orElse htarget hiter hne _ _ ihbody ihorElse =>
    intro above d hd
    obtain ⟨t, i, ds, es, ht, hi, hds, hes, rfl⟩ := Rule.forLoop_ok hd
    have ht := htarget.keeps _ t (present_eq_ok ht)
    have hi := hiter.keeps _ i (present_eq_ok hi)
    have hblock := feeds_block hne (feeds_of_mem ihbody hds)
    have hloop {rest : List Doc} {k : Nat} (hrest : (concat rest).Feeds k) :
        (concat ([text "for ", t, text " in ", i, text ":", Rule.blockDoc ds] ++ rest)).Feeds
          ((body.map lines).sum + k) :=
      feeds_cons_keeps (keeps_plain (by decide)) (feeds_cons_keeps ht (feeds_cons_keeps
        (keeps_plain (by decide)) (feeds_cons_keeps hi (feeds_cons_keeps (keeps_plain (by decide))
          (feeds_cons hblock hrest)))))
    cases orElse with
    | nil =>
      obtain rfl : es = [] := List.map_eq_nil_iff.mp hes.symm
      exact ⟨_, lines_forLoop target iter [], hloop feeds_nil⟩
    | cons e orElse =>
      have hne : es ≠ [] := by
        rintro rfl
        cases hes
      rw [List.isEmpty_eq_false_iff.mpr hne]
      have helse := feeds_block (List.cons_ne_nil e orElse) (feeds_of_mem ihorElse hes)
      have helseLine : (text "else:").Keeps Unquoted := keeps_plain (by decide)
      have hrest := feeds_cons feeds_line (feeds_cons_keeps helseLine (feeds_cons helse feeds_nil))
      refine ⟨_, ?_, hloop hrest⟩
      rw [lines_forLoop, List.isEmpty_cons, if_neg Bool.false_ne_true]
      omega
  | @assign offset targets value htargets hvalue =>
    intro above d hd
    obtain ⟨ts, v, hts, hv, rfl⟩ := Rule.assign_ok hd
    have hjoin := keeps_listed (fun n hn => (htargets n hn).keeps) hts
    have hv := hvalue.keeps _ v (present_eq_ok hv)
    exact ⟨0, rfl, (keeps_cons hjoin (keeps_cons (keeps_plain (by decide))
      (keeps_cons hv keeps_nil))).feeds⟩
  | @augAssign offset target op value htarget hop hvalue =>
    intro above d hd
    obtain ⟨t, o, v, ht, ho, hv, rfl⟩ := Rule.augAssign_ok hd
    have ht := htarget.keeps _ t (present_eq_ok ht)
    have ho := hop.keeps _ o (present_eq_ok ho)
    have hv := hvalue.keeps _ v (present_eq_ok hv)
    exact ⟨0, rfl, (keeps_cons ht (keeps_cons (keeps_plain (by decide)) (keeps_cons ho
      (keeps_cons (keeps_plain (by decide)) (keeps_cons hv keeps_nil))))).feeds⟩
  | @expression offset value hvalue =>
    intro above d hd
    exact ⟨0, rfl, (hvalue.keeps _ d (present_eq_ok hd)).feeds⟩

/-- **Brackets and lines.**  On every page, the brackets of a module are closed in the order in which
they have to be, and none is left open at the end.  Outside of them a line ends for each statement
at any depth, for each `else:`, and between two top-level statements. -/
theorem read_render {offset : Int} {body : List Node} {d : Doc} (hne : body ≠ [])
    (hbody : ∀ n ∈ body, Statement n) (hd : (module offset body).print = .ok d) (o : Options) :
    Nesting.read {} (d.render o).toList = some {
      quoted := false
      opened := []
      feeds := (module offset body).statements.length +
        (module offset body).statements.countP hasElse + (body.length - 1) } := by
  obtain ⟨ds, hds, rfl⟩ := (print_module hne).mp hd
  have hfeeds := feeds_moduleDoc hne (feeds_of_mem (fun n hn => (hbody n hn).feeds) hds)
  rw [sum_lines] at hfeeds
  rw [render, String.toList_ofList, read_layout o (hfeeds 0), Nat.zero_add]
  rfl

/-- a loop with an `else:`, on a page on which its dictionary takes three lines -/
theorem read_render_loop : ∃ d, (module 0 [
      .forLoop 0 (.ident 4 "a") (.ident 9 "b")
        [.expression 15 (.dict 15 [.ident 16 "k"] [.string 19 "("])] [.expression 32 (.ident 32 "c")],
      .expression 34 (.ident 34 "e")]).print = .ok d ∧
    Nesting.read {} (d.render { printWidth := 1 }).toList = some { feeds := 6 } := by
  have hident {offset : Int} {id : String} (hid : AllPlain id.toList) :
      Statement (.expression offset (.ident offset id)) := .expression (.ident hid)
  have hdict : Statement (.expression 15 (.dict 15 [.ident 16 "k"] [.string 19 "("])) :=
    .expression (.dict (List.forall_mem_singleton.mpr (.ident (by decide)))
      (List.forall_mem_singleton.mpr (.string (by decide))))
  have hloop : Statement (.forLoop 0 (.ident 4 "a") (.ident 9 "b")
      [.expression 15 (.dict 15 [.ident 16 "k"] [.string 19 "("])]
      [.expression 32 (.ident 32 "c")]) :=
    .forLoop (.ident (by decide)) (.ident (by decide)) (List.cons_ne_nil _ _)
      (List.forall_mem_singleton.mpr hdict) (List.forall_mem_singleton.mpr (hident (by decide)))
  have hname : Statement (.expression 34 (.ident 34 "e")) := hident (by decide)
  have hbody := List.forall_mem_cons.mpr ⟨hloop, List.forall_mem_singleton.mpr hname⟩
  exact ⟨_, rfl, @read_render 0 _ _ (List.cons_ne_nil _ _) hbody rfl _⟩

end Node

end Reflow
