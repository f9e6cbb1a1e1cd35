import Mathlib.Data.List.Chain
import Reflow.Proofs.Indentation
import Reflow.Proofs.TextLines
import Reflow.Proofs.TopLevel

/-!
# Lines put together again

If a document can only break where it prints nothing otherwise, and no blank stands next to such a
place, then its text on one line can be had from its text on any page: put the lines together, each
without its indentation.

* `Doc.pieces`              the characters of a document, and the places where lines may end;
* `Tidy`                    no blank is next to such a place;
* `Page.Reached.joined`     along a run, what was written and what is still to be written together
                            are the characters of the document;
* `Doc.unbroken_layout`     the lines of a text, put together again.
-/

namespace Reflow

/-! ## pieces of documents -/

/-- what a document is made of -/
inductive Piece where
  | char (c : Char)
  /-- a place where a line may end, and where nothing is printed if it does not -/
  | seam
  /-- a line break that prints something else, or a part that hangs on the mode -/
  | other
  deriving DecidableEq

def isBlank (c : Char) : Bool := c == ' ' || c == '\t'

namespace Piece

def char? : Piece → Option Char
  | .char c => some c
  | _ => none

/-- that two pieces may be neighbours -/
def Apart : Piece → Piece → Prop
  | .seam, .char c => isBlank c = false
  | .char c, .seam => isBlank c = false
  | _, _ => True

/-- a piece of a document that is laid out on one line but for its seams -/
def Plain : Piece → Prop
  | .char c => isLineEnd c = false
  | .seam => True
  | .other => False

instance (a b : Piece) : Decidable (Apart a b) := by
  cases a <;> cases b <;> unfold Apart <;> infer_instance

end Piece

/-- no blank is next to a seam, and there is nothing but characters and seams -/
structure Tidy (ps : List Piece) : Prop where
  apart : ps.IsChain Piece.Apart
  plain : ∀ x ∈ ps, x.Plain

def chars (ps : List Piece) : List Char := ps.filterMap Piece.char?

theorem chars_append (ps qs : List Piece) : chars (ps ++ qs) = chars ps ++ chars qs :=
  List.filterMap_append

theorem chars_text (cs : List Char) : chars (cs.map .char) = cs := by
  rw [chars, List.filterMap_map]
  exact List.filterMap_some

namespace Doc

mutual
def pieces : Doc → List Piece
  | .text s => s.toList.map .char
  | .concat parts => piecesAll parts
  | .group contents _ => contents.pieces
  | .indent contents => contents.pieces
  | .ifBreak _ _ => [.other]
  | .breakParent => []
  | .linebreak true false => [.seam]
  | .linebreak _ _ => [.other]
def piecesAll : List Doc → List Piece
  | [] => []
  | d :: ds => d.pieces ++ piecesAll ds
end

theorem piecesAll_eq (ds : List Doc) : piecesAll ds = ds.flatMap pieces := by
  induction ds with
  | nil => rfl
  | cons d ds ih => rw [piecesAll, ih, List.flatMap_cons]

mutual
theorem pieces_propagate : ∀ d : Doc, d.propagate.1.pieces = d.pieces
  | .text _ => rfl
  | .concat parts => piecesAll_propagateAll parts
  | .group contents _ => contents.pieces_propagate
  | .indent contents => contents.pieces_propagate
  | .ifBreak _ _ => rfl
  | .breakParent => rfl
  | .linebreak _ _ => rfl
theorem piecesAll_propagateAll : ∀ ds : List Doc, piecesAll (propagateAll ds).1 = piecesAll ds
  | [] => rfl
  | d :: ds => congrArg₂ (· ++ ·) d.pieces_propagate (piecesAll_propagateAll ds)
end

end Doc

/-! ## one command -/

namespace Page
variable {o : Options} {p q : Page} {d : Doc} {ls : Lines}

/-- what is still to be written -/
def pieces (p : Page) : List Piece := p.todo.flatMap (·.doc.pieces)

theorem pieces_spread (level : Nat) (mode : Mode) (parts : List Doc) :
    (Command.spread level mode parts).flatMap (·.doc.pieces) = Doc.piecesAll parts := by
  rw [Doc.piecesAll_eq, Command.spread, List.flatMap_map]

/-- a command writes characters that are to be written next, or comes to a seam -/
theorem Step.pieces (h : Step o p q) (hp : ∀ x ∈ p.pieces, x.Plain) :
    (∃ cs : List Char, p.ink o = .chars cs ∧ p.pieces = cs.map .char ++ q.pieces) ∨
    (p.pieces = .seam :: q.pieces ∧ (p.ink o = .chars [] ∨ ∃ n, p.ink o = .newline n)) := by
  cases h with
  | @text w c level mode s rest => exact .inl ⟨s.toList, rfl, rfl⟩
  | @concat w c level mode parts rest =>
    refine .inl ⟨[], rfl, ?_⟩
    simp only [Page.pieces, List.flatMap_append, List.flatMap_cons, pieces_spread, Doc.pieces,
      List.map_nil, List.nil_append]
  | ifBreak => exact (hp .other (by simp [Page.pieces, Doc.pieces])).elim
  | softline => exact .inr ⟨rfl, .inl rfl⟩
  | space => exact (hp .other (by simp [Page.pieces, Doc.pieces])).elim
  | @newline w c level mode soft hard rest hbreak =>
    cases soft <;> cases hard
    case true.false =>
      obtain rfl : mode = .broken := hbreak.resolve_right Bool.false_ne_true
      exact .inr ⟨rfl, .inr ⟨_, rfl⟩⟩
    all_goals exact (hp .other (by simp [Page.pieces, Doc.pieces])).elim
  | _ => exact .inl ⟨[], rfl, rfl⟩

end Page

/-! ## lines put together -/

/-- a line without its indentation -/
def unindented (line : List Char) : List Char := line.dropWhile isBlank

namespace Lines

/-- the lines as they are shown, put together -/
def joined (ls : Lines) : List Char := ls.shown.flatMap unindented

/-- the piece before what is written next: a line that is blank so far has only its indentation -/
def edge (line : List Char) : Piece :=
  if line.all isBlank then .seam else line.getLast?.elim .seam .char

theorem joined_eq (done : List (List Char)) (last : List Char) :
    joined ⟨done, last⟩ = (done.map withoutBlanks).flatMap unindented ++ unindented last := by
  rw [joined, shown, List.flatMap_append, List.flatMap_singleton]

theorem unindented_blank {line : List Char} (h : line.all isBlank = true) : unindented line = [] :=
  List.dropWhile_eq_nil_iff.mpr (List.all_eq_true.mp h)

theorem edge_blank {line : List Char} (h : line.all isBlank = true) : edge line = .seam := by
  rw [edge, if_pos h]

theorem edge_concat {line : List Char} {c : Char} (h : (line ++ [c]).all isBlank = false) :
    edge (line ++ [c]) = .char c := by
  rw [edge, if_neg (Bool.eq_false_iff.mp h), List.getLast?_concat]
  rfl

/-- a line that a seam may follow has no blanks at its end, or nothing but blanks -/
theorem unindented_withoutBlanks {line : List Char} (h : (edge line).Apart .seam) :
    unindented (withoutBlanks line) = unindented line := by
  cases hblank : line.all isBlank with
  | true =>
    have hreverse : line.reverse.all isBlank = true := by rw [List.all_reverse, hblank]
    have hempty : withoutBlanks line = [] := congrArg List.reverse (unindented_blank hreverse)
    rw [hempty, unindented_blank hblank]
    rfl
  | false =>
    rcases List.eq_nil_or_concat line with rfl | ⟨line, c, rfl⟩
    · cases hblank
    · rw [List.concat_eq_append] at h hblank ⊢
      rw [edge_concat hblank] at h
      have hc : isBlank c = false := h
      have hkeep : (c :: line.reverse).dropWhile isBlank = c :: line.reverse :=
        List.dropWhile_cons_of_neg (by rw [hc]; exact Bool.false_ne_true)
      have hsame : withoutBlanks (line ++ [c]) = line ++ [c] := by
        rw [withoutBlanks, List.reverse_concat]
        show ((c :: line.reverse).dropWhile isBlank).reverse = line ++ [c]
        rw [hkeep, List.reverse_cons, List.reverse_reverse]
      rw [hsame]

theorem unindented_append {line cs : List Char} {ps : List Piece}
    (h : (edge line :: (cs.map Piece.char ++ ps)).IsChain Piece.Apart) :
    unindented (line ++ cs) = unindented line ++ cs := by
  rw [unindented, unindented, List.dropWhile_append]
  cases hblank : line.all isBlank with
  | false =>
    have hne : line.dropWhile isBlank ≠ [] := by
      rw [Ne, List.dropWhile_eq_nil_iff, ← List.all_eq_true, hblank]
      exact Bool.false_ne_true
    rw [if_neg (List.isEmpty_iff.not.mpr hne)]
  | true =>
    have hline : line.dropWhile isBlank = [] := unindented_blank hblank
    rw [hline, edge_blank hblank] at *
    cases cs with
    | nil => rfl
    | cons c cs =>
      have hc : isBlank c = false := (List.isChain_cons_cons.mp h).1
      exact List.dropWhile_cons_of_neg (by rw [hc]; exact Bool.false_ne_true)

theorem edge_append {line cs : List Char} {ps : List Piece}
    (h : (edge line :: (cs.map Piece.char ++ ps)).IsChain Piece.Apart) :
    (edge (line ++ cs) :: ps).IsChain Piece.Apart := by
  rcases List.eq_nil_or_concat cs with rfl | ⟨cs, c, rfl⟩
  · rwa [List.append_nil]
  · have hblank : (line ++ cs ++ [c]).all isBlank = false := by
      rw [Bool.eq_false_iff]
      intro hall
      rw [List.append_assoc, List.all_append, Bool.and_eq_true] at hall
      rw [edge_blank hall.1] at h
      -- the first new character would be a blank next to a seam
      cases cs with
      | nil =>
        have hc : isBlank c = false := (List.isChain_cons_cons.mp h).1
        simp [hc] at hall
      | cons b cs =>
        have hb : isBlank b = false := (List.isChain_cons_cons.mp h).1
        simp [hb] at hall
    rw [List.concat_eq_append] at h ⊢
    rw [← List.append_assoc, edge_concat hblank]
    rw [List.map_append, List.append_assoc, ← List.cons_append] at h
    exact h.right_of_append

end Lines

theorem Piece.isChain_skip {a : Piece} {ps : List Piece}
    (h : (a :: .seam :: ps).IsChain Piece.Apart) : (a :: ps).IsChain Piece.Apart := by
  obtain ⟨ha, h⟩ := List.isChain_cons_cons.mp h
  cases ps with
  | nil => exact .singleton a
  | cons b ps =>
    obtain ⟨hb, h⟩ := List.isChain_cons_cons.mp h
    refine List.isChain_cons_cons.mpr ⟨?_, h⟩
    cases a <;> cases b <;> trivial

/-! ## along a run -/

namespace Page
variable {o : Options} {p q : Page} {d : Doc} {ls : Lines}

/-- where no blank is next to a seam, seams and line ends leave the same characters -/
theorem Step.joined (h : Step o p q) (hp : ∀ x ∈ p.pieces, x.Plain)
    (hls : (Lines.edge ls.last :: p.pieces).IsChain Piece.Apart) :
    (Lines.edge (ls.write (p.ink o)).last :: q.pieces).IsChain Piece.Apart ∧
      (ls.write (p.ink o)).joined ++ chars q.pieces = ls.joined ++ chars p.pieces := by
  obtain ⟨done, last⟩ := ls
  rcases h.pieces hp with ⟨cs, hink, hpieces⟩ | ⟨hpieces, hink⟩
  · rw [hpieces] at hls
    rw [hink, hpieces, Lines.write, Lines.joined_eq, Lines.joined_eq, chars_append, chars_text,
      Lines.unindented_append hls]
    exact ⟨Lines.edge_append hls, by simp only [List.append_assoc]⟩
  · rw [hpieces] at hls
    have hchars : chars p.pieces = chars q.pieces := by rw [hpieces]; rfl
    rw [hchars]
    rcases hink with hink | ⟨n, hink⟩
    · rw [hink, Lines.write, List.append_nil]
      exact ⟨Piece.isChain_skip hls, rfl⟩
    · obtain ⟨hlast, hrest⟩ := List.isChain_cons_cons.mp hls
      have hspaces : (List.replicate n ' ').all isBlank = true := by
        rw [List.all_replicate]
        exact ite_self true
      rw [hink, Lines.write, Lines.joined_eq, Lines.joined_eq, Lines.edge_blank hspaces,
        Lines.unindented_blank hspaces, List.map_append, List.flatMap_append, List.map_singleton,
        List.flatMap_singleton, Lines.unindented_withoutBlanks hlast, List.append_nil]
      exact ⟨hrest, rfl⟩

theorem Step.plain (h : Step o p q) (hp : ∀ x ∈ p.pieces, x.Plain) : ∀ x ∈ q.pieces, x.Plain := by
  intro x hx
  apply hp
  rcases h.pieces hp with ⟨cs, -, hpieces⟩ | ⟨hpieces, -⟩
  · rw [hpieces]
    exact List.mem_append_right _ hx
  · rw [hpieces]
    exact List.mem_cons_of_mem _ hx

theorem pieces_start (d : Doc) : (start d).pieces = d.pieces := by
  show d.propagate.1.pieces ++ [] = d.pieces
  rw [List.append_nil, d.pieces_propagate]

theorem Reached.joined (h : Reached o d ls p) (hd : Tidy (.seam :: d.pieces)) :
    (∀ x ∈ p.pieces, x.Plain) ∧ (Lines.edge ls.last :: p.pieces).IsChain Piece.Apart ∧
      ls.joined ++ chars p.pieces = chars d.pieces := by
  induction h with
  | start =>
    rw [pieces_start]
    exact ⟨(List.forall_mem_cons.mp hd.plain).2, hd.apart, rfl⟩
  | step h hq ih =>
    obtain ⟨hplain, hchain, hjoined⟩ := ih
    obtain ⟨hchain', hjoined'⟩ := (step_iff.mp hq).joined hplain hchain
    exact ⟨(step_iff.mp hq).plain hplain, hchain', hjoined'.trans hjoined⟩

end Page

/-! ## texts -/

/-- the lines of a text put together, each without its indentation -/
def Text.unbroken (cs : List Char) : List Char := (cs.splitOnP isLineEnd).flatMap unindented

theorem Text.unbroken_line {line : List Char} (h : ∀ c ∈ line, isLineEnd c = false)
    (newline : EndOfLine) (cs : List Char) :
    unbroken (line ++ (newline.newline ++ cs)) = unindented line ++ unbroken cs := by
  have hsplit (e : Char) (he : isLineEnd e = true) (line rest : List Char)
      (h : ∀ c ∈ line, isLineEnd c = false) :
      unbroken (line ++ e :: rest) = unindented line ++ unbroken rest := by
    rw [unbroken, List.splitOnP_append_cons_of_forall_mem h e he, List.flatMap_cons]
    rfl
  cases newline with
  | lf => exact hsplit '\n' rfl line cs h
  | crlf =>
    have hrest : unbroken ('\n' :: cs) = unbroken cs :=
      hsplit '\n' rfl [] cs (fun _ hc => nomatch hc)
    exact (hsplit '\r' rfl line ('\n' :: cs) h).trans (congrArg _ hrest)

theorem Text.unbroken_intercalate (newline : EndOfLine) {lines : List (List Char)}
    (h : ∀ line ∈ lines, ∀ c ∈ line, isLineEnd c = false) :
    unbroken (newline.newline.intercalate lines) = lines.flatMap unindented := by
  induction lines with
  | nil => rfl
  | cons line lines ih =>
    obtain ⟨hline, hlines⟩ := List.forall_mem_cons.mp h
    cases lines with
    | nil =>
      rw [List.intercalate_singleton, unbroken, List.splitOnP_eq_singleton hline]
    | cons line' lines =>
      rw [List.intercalate_cons_of_ne_nil (List.cons_ne_nil _ _), List.append_assoc,
        unbroken_line hline, ih hlines]
      rfl

namespace Doc

mutual
theorem letters_of_plain :
    ∀ d : Doc, (∀ x ∈ d.pieces, x.Plain) → d.letters = chars d.pieces
  | .text s, _ => (chars_text s.toList).symm
  | .concat parts, h => lettersAll_of_plain parts h
  | .group contents _, h => contents.letters_of_plain h
  | .indent contents, h => contents.letters_of_plain h
  | .ifBreak _ _, h => (h .other (List.mem_singleton_self _)).elim
  | .breakParent, _ => rfl
  | .linebreak true false, _ => rfl
  | .linebreak true true, _ => rfl
  | .linebreak false _, _ => rfl
theorem lettersAll_of_plain :
    ∀ ds : List Doc, (∀ x ∈ piecesAll ds, x.Plain) → lettersAll ds = chars (piecesAll ds)
  | [], _ => rfl
  | d :: ds, h => by
    obtain ⟨hd, hds⟩ := List.forall_mem_append.mp h
    rw [lettersAll, piecesAll, chars_append, d.letters_of_plain hd, lettersAll_of_plain ds hds]
end

/-- the lines of a document put together again are its characters, whatever page it was laid out
on -/
theorem unbroken_layout (o : Options) {d : Doc} (h : Tidy (.seam :: d.pieces)) :
    Text.unbroken (d.layout o) = chars d.pieces := by
  have hplain := (List.forall_mem_cons.mp h.plain).2
  have hletters : ∀ c ∈ d.letters, isLineEnd c = false := by
    intro c hc
    rw [d.letters_of_plain hplain] at hc
    obtain ⟨x, hx, hxc⟩ := List.mem_filterMap.mp hc
    have hx := hplain x hx
    cases x with
    | char b =>
      obtain rfl : b = c := Option.some.inj hxc
      exact hx
    | seam => cases hxc
    | other => cases hxc
  have hrun : Page.Reached o d (d.lines o) ((Page.start d).run o) := Page.Reached.start.run
  have hlines : ∀ line ∈ (d.lines o).shown, ∀ c ∈ line, isLineEnd c = false :=
    d.shown_only o rfl hletters
  have hend : ((Page.start d).run o).pieces = [] := by rw [Page.pieces, Page.todo_run]; rfl
  have hjoined := (hrun.joined h).2.2
  rw [hend, chars, List.filterMap_nil, List.append_nil] at hjoined
  rw [layout_eq, Lines.text, Text.unbroken_intercalate o.endOfLine hlines]
  exact hjoined

end Doc

end Reflow
