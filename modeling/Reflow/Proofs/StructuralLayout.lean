import Reflow.Proofs.FlatText
import Reflow.Proofs.LineWidth
import Reflow.Proofs.TopLevel

/-!
# Layout by structure

The engine takes commands from a stack.  What it does with a document before it comes to the rest of
the stack is a function of the document, and of the rest only the columns up to its first line end
are looked at.  So layout is a recursion on documents, and that is the form in which documents are
compared.

* `Pen`                       what is written, and the column;
* `Doc.lay`                   a document laid out by structure;
* `Page.run_lay`              that is what a run does with the command on top of the stack;
* `Doc.layout_eq_lay`         and so with a whole document;
* `Doc.lay_suffix`            what stands before a character that is no blank stays as it is;
* `Doc.lay_flat`              a flat document is laid out as its text on one line;
* `Doc.TextOnly`              and so is one that holds nothing but texts, in any mode.
-/

namespace Reflow

/-- what is written, the last character first, and the column of the next character -/
structure Pen where
  written : List Char := []
  column : Nat := 0

namespace Pen

def type (p : Pen) (cs : List Char) : Pen := ⟨cs.reverse ++ p.written, p.column + cs.length⟩

def breakLine (o : Options) (level : Nat) (p : Pen) : Pen :=
  ⟨List.replicate (level * o.tabWidth) ' ' ++
      (o.endOfLine.newline.reverse ++ Page.trimmed p.written),
    level * o.tabWidth⟩

def page (p : Pen) (todo : List Command) : Page := ⟨p.written, p.column, todo⟩

theorem type_append (p : Pen) (cs ds : List Char) : p.type (cs ++ ds) = (p.type cs).type ds := by
  simp only [type, List.reverse_append, List.append_assoc, List.length_append, Nat.add_assoc]

end Pen

namespace Doc

mutual
/-- a document laid out, if there are `after` columns from its end to the next line end -/
def lay (o : Options) : Doc → (level : Nat) → Mode → (after : Nat) → Pen → Pen
  | .text s, _, _, _, p => p.type s.toList
  | .concat parts, level, mode, after, p => layAll o parts level mode after p
  | .group contents shouldBreak, level, mode, after, p =>
    contents.lay o level (groupMode o p.column contents shouldBreak mode after) after p
  | .indent contents, level, mode, after, p => contents.lay o (level + 1) mode after p
  | .ifBreak broken flat, level, mode, after, p =>
    mode.choose (broken.lay o level mode after p) (flat.lay o level mode after p)
  | .breakParent, _, _, _, p => p
  | .linebreak soft hard, level, mode, _, p =>
    if mode = .flat ∧ !hard then if soft then p else p.type [' '] else p.breakLine o level
def layAll (o : Options) : List Doc → (level : Nat) → Mode → (after : Nat) → Pen → Pen
  | [], _, _, _, p => p
  | d :: ds, level, mode, after, p =>
    layAll o ds level mode after (d.lay o level mode (spanAll ds mode after) p)
end

theorem layAll_append (o : Options) (ds es : List Doc) (level : Nat) (mode : Mode) (after : Nat)
    (p : Pen) : layAll o (ds ++ es) level mode after p =
      layAll o es level mode after (layAll o ds level mode (spanAll es mode after) p) := by
  induction ds generalizing p with
  | nil => rfl
  | cons d ds ih => rw [List.cons_append, layAll, ih, layAll, spanAll_append]

end Doc

/-! ## a run -/

open Command

namespace Page
variable {o : Options}

mutual
/-- a run takes the command on top of the stack as its structure says, then the rest -/
theorem run_lay : ∀ (d : Doc) (level : Nat) (mode : Mode) (rest : List Command) (p : Pen),
    (p.page (⟨level, mode, d⟩ :: rest)).run o =
      ((d.lay o level mode (spans rest) p).page rest).run o
  | .text _, _, _, _, _ => run_some rfl
  | .concat parts, level, mode, rest, p => (run_some rfl).trans (run_layAll parts level mode rest p)
  | .group contents shouldBreak, level, mode, rest, p =>
    (run_some (step_group _ _ level mode contents shouldBreak rest)).trans
      (run_lay contents level _ rest p)
  | .indent contents, level, mode, rest, p =>
    (run_some rfl).trans (run_lay contents (level + 1) mode rest p)
  | .ifBreak broken _, level, .broken, rest, p =>
    (run_some rfl).trans (run_lay broken level .broken rest p)
  | .ifBreak _ flat, level, .flat, rest, p =>
    (run_some rfl).trans (run_lay flat level .flat rest p)
  | .breakParent, _, _, _, _ => run_some rfl
  | .linebreak soft hard, level, mode, rest, p => by
    rw [Doc.lay]
    by_cases hflat : mode = .flat ∧ !hard
    · rw [if_pos hflat]
      obtain ⟨rfl, hhard⟩ := hflat
      obtain rfl : hard = false := by simpa using hhard
      cases soft with
      | true => exact run_some Step.softline.step_eq
      | false => exact run_some Step.space.step_eq
    · rw [if_neg hflat]
      have hbreak : mode = .broken ∨ hard = true := by
        cases mode <;> cases hard <;> simp_all
      exact run_some (Step.newline hbreak).step_eq
theorem run_layAll : ∀ (ds : List Doc) (level : Nat) (mode : Mode) (rest : List Command) (p : Pen),
    (p.page (spread level mode ds ++ rest)).run o =
      ((Doc.layAll o ds level mode (spans rest) p).page rest).run o
  | [], _, _, _, _ => rfl
  | d :: ds, level, mode, rest, p => by
    have hfirst := run_lay d level mode (spread level mode ds ++ rest) p
    rw [spans_spread] at hfirst
    exact hfirst.trans (run_layAll ds level mode rest _)
end

end Page

namespace Doc
variable {o : Options}

theorem layout_eq_lay (o : Options) (d : Doc) :
    d.layout o = (d.propagateBreaks.lay o 0 .broken 0 {}).written.reverse := by
  have hrun : (Page.start d).run o = _ := Page.run_lay d.propagateBreaks 0 .broken [] {}
  rw [layout, hrun, Page.run_none rfl]
  rfl

/-! ## what is already written -/

mutual
theorem lay_suffix {text : List Char} (htext : Page.trimmed text = text) :
    ∀ (d : Doc) (level : Nat) (mode : Mode) (after : Nat) {p : Pen}, text <:+ p.written →
      text <:+ (d.lay o level mode after p).written
  | .text _, _, _, _, _, h => h.trans (List.suffix_append _ _)
  | .concat parts, level, mode, after, _, h => layAll_suffix htext parts level mode after h
  | .group contents _, level, _, after, _, h => contents.lay_suffix htext level _ after h
  | .indent contents, level, mode, after, _, h => contents.lay_suffix htext (level + 1) mode after h
  | .ifBreak broken _, level, .broken, after, _, h => broken.lay_suffix htext level .broken after h
  | .ifBreak _ flat, level, .flat, after, _, h => flat.lay_suffix htext level .flat after h
  | .breakParent, _, _, _, _, h => h
  | .linebreak soft hard, level, mode, _, p, h => by
    rw [lay]
    split
    · split
      · exact h
      · exact h.trans (List.suffix_append [' '] _)
    · -- only blanks behind the text are dropped
      obtain ⟨behind, hp⟩ := h
      refine ⟨List.replicate (level * o.tabWidth) ' ' ++
        (o.endOfLine.newline.reverse ++ Page.trimmed behind), ?_⟩
      rw [Pen.breakLine, ← hp, Page.trimmed_append htext, List.append_assoc, List.append_assoc]
theorem layAll_suffix {text : List Char} (htext : Page.trimmed text = text) :
    ∀ (ds : List Doc) (level : Nat) (mode : Mode) (after : Nat) {p : Pen}, text <:+ p.written →
      text <:+ (layAll o ds level mode after p).written
  | [], _, _, _, _, h => h
  | d :: ds, level, mode, after, _, h =>
    layAll_suffix htext ds level mode after (d.lay_suffix htext level mode _ h)
end

/-! ## flat documents -/

mutual
theorem span_flat : ∀ (d : Doc), d.forced = false → ∀ after : Nat,
    d.span .flat after = d.flatText.length + after
  | .text _, _, _ => rfl
  | .concat parts, hd, after => spanAll_flat parts hd after
  | .group contents _, hd, after => by
    obtain ⟨rfl, hcontents⟩ := Bool.or_eq_false_iff.mp hd
    exact contents.span_flat hcontents after
  | .indent contents, hd, after => contents.span_flat hd after
  | .ifBreak _ flat, hd, after => flat.span_flat (Bool.or_eq_false_iff.mp hd).2 after
  | .breakParent, hd, _ => nomatch hd
  | .linebreak soft hard, hd, after => by
    obtain rfl : hard = false := hd
    cases soft with
    | true => exact (Nat.zero_add after).symm
    | false => rfl
theorem spanAll_flat : ∀ (ds : List Doc), forcedAny ds = false → ∀ after : Nat,
    spanAll ds .flat after = (flatTexts ds).length + after
  | [], _, after => (Nat.zero_add after).symm
  | d :: ds, hds, after => by
    obtain ⟨hd, hds⟩ := Bool.or_eq_false_iff.mp hds
    rw [spanAll, spanAll_flat ds hds, d.span_flat hd, flatTexts, List.length_append, Nat.add_assoc]
end

mutual
theorem lay_flat : ∀ (d : Doc), d.forced = false → ∀ (level after : Nat) (p : Pen),
    d.lay o level .flat after p = p.type d.flatText
  | .text _, _, _, _, _ => rfl
  | .concat parts, hd, level, after, p => layAll_flat parts hd level after p
  | .group contents _, hd, level, after, p => by
    obtain ⟨rfl, hcontents⟩ := Bool.or_eq_false_iff.mp hd
    rw [lay, groupMode, if_neg Bool.false_ne_true, if_pos (.inl rfl)]
    exact contents.lay_flat hcontents level after p
  | .indent contents, hd, level, after, p => contents.lay_flat hd (level + 1) after p
  | .ifBreak _ flat, hd, level, after, p =>
    flat.lay_flat (Bool.or_eq_false_iff.mp hd).2 level after p
  | .breakParent, hd, _, _, _ => nomatch hd
  | .linebreak soft hard, hd, _, _, _ => by
    obtain rfl : hard = false := hd
    cases soft <;> rfl
theorem layAll_flat : ∀ (ds : List Doc), forcedAny ds = false → ∀ (level after : Nat) (p : Pen),
    layAll o ds level .flat after p = p.type (flatTexts ds)
  | [], _, _, _, _ => rfl
  | d :: ds, hds, level, after, p => by
    obtain ⟨hd, hds⟩ := Bool.or_eq_false_iff.mp hds
    rw [layAll, d.lay_flat hd, layAll_flat ds hds, flatTexts, Pen.type_append]
end

/-! ## documents of texts -/

inductive TextOnly : Doc → Prop where
  | text (s : String) : TextOnly (text s)
  | concat {parts : List Doc} (h : ∀ d ∈ parts, TextOnly d) : TextOnly (concat parts)

namespace TextOnly
variable {d : Doc}

theorem forced (h : TextOnly d) : d.forced = false := by
  induction h with
  | text => rfl
  | concat _ ih =>
    show forcedAny _ = false
    rw [forcedAny_eq, List.any_eq_false]
    intro d hd
    rw [ih d hd]
    exact Bool.false_ne_true

/-- there is nothing in it that looks at the mode -/
theorem lay (h : TextOnly d) (level : Nat) (mode : Mode) (after : Nat) (p : Pen) :
    d.lay o level mode after p = p.type d.flatText := by
  induction h generalizing after p with
  | text => rfl
  | @concat parts _ ih =>
    rw [Doc.lay, flatText]
    clear * - ih
    induction parts generalizing p with
    | nil => rfl
    | cons d ds ihds =>
      obtain ⟨hd, hds⟩ := List.forall_mem_cons.mp ih
      rw [layAll, hd, ihds hds, flatTexts, Pen.type_append]

end TextOnly

end Doc

end Reflow
