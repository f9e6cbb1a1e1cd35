import Mathlib.Data.Bool.AllAny
import Mathlib.Data.List.TakeWhile
import Reflow.Proofs.PageWidth
import Reflow.Proofs.Whitespace

/-!
# Indentation

An indented document that starts on a new line is laid out as on a page that is narrower by the
width of an indentation, with every line moved to the right.  The two runs keep in step: on the wide
page every command is one level deeper and every column further right, so what is left of a line is
the same on both.

* `Page.Reached.only`     the lines of a run hold the texts of the document, and spaces;
* `Page.Step.deeper`      a command on the narrow page, and the same one on the wide page;
* `Page.lines_deeper`     so the lines of the wide page are those of the narrow one, moved;
* `Doc.layout_indented`   the text of an indented document.
-/

namespace Reflow

/-! ## the characters of lines -/

namespace Page
variable {o : Options} {d : Doc} {p q : Page} {ls : Lines} {P : Char → Prop}

/-- all that is still to be written has characters of one kind -/
def Only (P : Char → Prop) (p : Page) : Prop :=
  ∀ command ∈ p.todo, ∀ c ∈ command.doc.letters, P c

theorem Step.only (h : Step o p q) (hp : p.Only P) : q.Only P := by
  cases h with
  | @concat w c level mode parts rest =>
    obtain ⟨hhead, hrest⟩ := List.forall_mem_cons.mp hp
    have hparts : ∀ d ∈ parts, ∀ c ∈ d.letters, P c := by
      intro d hd c hc
      apply hhead
      rw [Doc.letters, Doc.lettersAll_eq]
      exact List.mem_flatMap.mpr ⟨d, hd, hc⟩
    exact List.forall_mem_append.mpr ⟨List.forall_mem_map.mpr hparts, hrest⟩
  | @ifBreak w c level mode broken flat rest =>
    obtain ⟨hhead, hrest⟩ := List.forall_mem_cons.mp hp
    obtain ⟨hbroken, hflat⟩ := List.forall_mem_append.mp hhead
    refine List.forall_mem_cons.mpr ⟨?_, hrest⟩
    cases mode with
    | broken => exact hbroken
    | flat => exact hflat
  | indent => exact List.forall_mem_cons.mpr (List.forall_mem_cons.mp hp)
  | inherited => exact List.forall_mem_cons.mpr (List.forall_mem_cons.mp hp)
  | fitted => exact List.forall_mem_cons.mpr (List.forall_mem_cons.mp hp)
  | unfitted => exact List.forall_mem_cons.mpr (List.forall_mem_cons.mp hp)
  | marked => exact List.forall_mem_cons.mpr (List.forall_mem_cons.mp hp)
  | _ => exact (List.forall_mem_cons.mp hp).2

theorem Only.ink (hspace : P ' ') (hp : p.Only P) {cs : List Char} (h : p.ink o = .chars cs) :
    ∀ c ∈ cs, P c := by
  unfold Page.ink at h
  split at h
  · next level mode s rest htodo =>
    injection h with h
    subst h
    rw [Only, htodo] at hp
    exact (List.forall_mem_cons.mp hp).1
  · split at h
    · next soft _ _ _ _ =>
      injection h with h
      subst h
      cases soft <;> simp [hspace]
    · cases h
  · injection h with h
    subst h
    exact List.forall_mem_nil P

/-- a line holds the texts of the document, and spaces -/
theorem Reached.only (h : Reached o d ls p) (hspace : P ' ') (hd : ∀ c ∈ d.letters, P c) :
    p.Only P ∧ ∀ line ∈ ls.all, ∀ c ∈ line, P c := by
  induction h with
  | start =>
    constructor
    · intro command hcommand c hc
      rw [List.mem_singleton.mp hcommand] at hc
      rw [← d.letters_propagate] at hd
      exact hd c hc
    · intro line hline c hc
      rw [List.mem_singleton.mp hline] at hc
      cases hc
  | @step ls p q h hq ih =>
    obtain ⟨hp, hls⟩ := ih
    refine ⟨(step_iff.mp hq).only hp, ?_⟩
    obtain ⟨hdone, hlast⟩ := List.forall_mem_append.mp hls
    have hlast := List.forall_mem_singleton.mp hlast
    cases hink : p.ink o with
    | chars cs =>
      have hcs := hp.ink hspace hink
      refine List.forall_mem_append.mpr ⟨hdone, ?_⟩
      exact List.forall_mem_singleton.mpr (List.forall_mem_append.mpr ⟨hlast, hcs⟩)
    | newline n =>
      have hnew : ∀ c ∈ List.replicate n ' ', P c := by
        intro c hc
        rw [List.eq_of_mem_replicate hc]
        exact hspace
      exact List.forall_mem_append.mpr ⟨hls, List.forall_mem_singleton.mpr hnew⟩

end Page

/-! ## deeper commands -/

def Command.deeper (c : Command) : Command := { c with level := c.level + 1 }

def Ink.deeper (n : Nat) : Ink → Ink
  | .chars cs => .chars cs
  | .newline indentation => .newline (indentation + n)

/-- lines below an empty one, all of them moved to the right -/
def Lines.deeper (n : Nat) (ls : Lines) : Lines :=
  ⟨[] :: ls.done.map (List.replicate n ' ' ++ ·), List.replicate n ' ' ++ ls.last⟩

theorem Lines.write_deeper (n : Nat) (ls : Lines) (ink : Ink) :
    (ls.deeper n).write (ink.deeper n) = (ls.write ink).deeper n := by
  cases ink with
  | chars cs => simp [deeper, write, Ink.deeper]
  | newline indentation =>
    have hsplit : List.replicate (indentation + n) ' ' =
        List.replicate n ' ' ++ List.replicate indentation ' ' := by
      rw [List.replicate_append_replicate, Nat.add_comm]
    simp [deeper, write, Ink.deeper, hsplit]

theorem fits_deeper (todo : List Command) (width : Int) :
    fits (todo.map Command.deeper) width = fits todo width := by
  rw [← fits_level, ← fits_level todo, List.map_map]
  rfl

/-- the same page without the room of one indentation -/
def Options.narrowed (o : Options) (h : o.tabWidth < o.printWidth) : Options :=
  { o with printWidth := o.printWidth - o.tabWidth, printWidth_pos := Nat.sub_pos_of_lt h }

namespace Page

/-- a page with all commands one level deeper, below any text `w` -/
def deeper (n : Nat) (w : List Char) (p : Page) : Page :=
  ⟨w, p.column + n, p.todo.map Command.deeper⟩

section
variable {o : Options} {p q : Page}

theorem ink_deeper (w : List Char) (p : Page) :
    (p.deeper o.tabWidth w).ink o = (p.ink o).deeper o.tabWidth := by
  obtain ⟨w', c, todo⟩ := p
  cases todo with
  | nil => rfl
  | cons command rest =>
    obtain ⟨level, mode, doc⟩ := command
    cases doc with
    | linebreak soft hard =>
      show (if _ then Ink.chars _ else Ink.newline ((level + 1) * o.tabWidth)) =
        Ink.deeper _ (if _ then Ink.chars _ else Ink.newline (level * o.tabWidth))
      rw [Nat.succ_mul]
      split <;> rfl
    | _ => rfl

theorem Step.deeper (h : o.tabWidth < o.printWidth) (hstep : Step (o.narrowed h) p q)
    (w : List Char) : ∃ w', Step o (p.deeper o.tabWidth w) (q.deeper o.tabWidth w') := by
  -- the same is left of a line on both pages
  have hwidth (c : Nat) : (o.printWidth : Int) - (c + o.tabWidth : Nat) =
      ((o.narrowed h).printWidth : Int) - c := by
    show (o.printWidth : Int) - (c + o.tabWidth : Nat) = (o.printWidth - o.tabWidth : Nat) - c
    omega
  have hfits (level : Nat) (contents : Doc) (rest : List Command) (c : Nat) :
      Reflow.fits (⟨level + 1, .flat, contents⟩ :: rest.map Command.deeper)
          ((o.printWidth : Int) - (c + o.tabWidth : Nat)) =
        Reflow.fits (⟨level, .flat, contents⟩ :: rest) (((o.narrowed h).printWidth : Int) - c) := by
    rw [hwidth]
    exact fits_deeper (⟨level, .flat, contents⟩ :: rest) _
  cases hstep with
  | @text w₀ c level mode s rest =>
    refine ⟨s.toList.reverse ++ w, ?_⟩
    show Step o _ ⟨_, c + s.length + o.tabWidth, _⟩
    rw [Nat.add_right_comm]
    exact .text
  | @concat w₀ c level mode parts rest =>
    refine ⟨w, ?_⟩
    have hspread : (Command.spread level mode parts ++ rest).map Command.deeper =
        Command.spread (level + 1) mode parts ++ rest.map Command.deeper := by
      rw [List.map_append, Command.spread, List.map_map]
      rfl
    show Step o _ ⟨w, c + o.tabWidth, (Command.spread level mode parts ++ rest).map Command.deeper⟩
    rw [hspread]
    exact .concat
  | fitted hf => exact ⟨w, .fitted ((hfits _ _ _ _).trans hf)⟩
  | unfitted hf => exact ⟨w, .unfitted ((hfits _ _ _ _).trans hf)⟩
  | @space w₀ c level rest =>
    refine ⟨' ' :: w, ?_⟩
    show Step o _ ⟨_, c + 1 + o.tabWidth, _⟩
    rw [Nat.add_right_comm]
    exact .space
  | @newline w₀ c level mode soft hard rest hbreak =>
    refine ⟨List.replicate ((level + 1) * o.tabWidth) ' ' ++
      (o.endOfLine.newline.reverse ++ trimmed w), ?_⟩
    show Step o _ ⟨_, level * o.tabWidth + o.tabWidth, _⟩
    rw [← Nat.succ_mul]
    exact .newline hbreak
  | indent => exact ⟨w, .indent⟩
  | inherited => exact ⟨w, .inherited⟩
  | marked => exact ⟨w, .marked⟩
  | ifBreak => exact ⟨w, .ifBreak⟩
  | softline => exact ⟨w, .softline⟩
  | breakParent => exact ⟨w, .breakParent⟩

theorem lines_deeper (h : o.tabWidth < o.printWidth) (p : Page) (w : List Char) (ls : Lines) :
    (p.deeper o.tabWidth w).lines o (ls.deeper o.tabWidth) =
      (p.lines (o.narrowed h) ls).deeper o.tabWidth := by
  induction p using induct_step (o.narrowed h) generalizing w ls with
  | stop p hp =>
    have hdeeper : (p.deeper o.tabWidth w).step o = none := by
      obtain ⟨w', c, todo⟩ := p
      cases todo with
      | nil => rfl
      | cons command todo => cases hp
    rw [lines_none hp, lines_none hdeeper]
  | step p q hq ih =>
    obtain ⟨w', hstep⟩ := (step_iff.mp hq).deeper h w
    have hink : p.ink (o.narrowed h) = p.ink o := rfl
    rw [lines_some hq, lines_some hstep.step_eq, ink_deeper, Lines.write_deeper, hink]
    exact ih w' (ls.write (p.ink o))

end

end Page

/-! ## indented documents -/

namespace Doc

open Page in
theorem lines_indented {o : Options} (h : o.tabWidth < o.printWidth) (soft : Bool) (d : Doc) :
    (indent (concat [linebreak soft true, d])).lines o =
      (d.lines (o.narrowed h)).deeper o.tabWidth := by
  let rest : List Command := [⟨1, .broken, d.propagateBreaks⟩]
  have hnewline : Step o ⟨[], 0, ⟨1, .broken, linebreak soft true⟩ :: rest⟩ _ := .newline (.inl rfl)
  -- the page on which the document itself is begun, and the lines above it
  let w := List.replicate (1 * o.tabWidth) ' ' ++ (o.endOfLine.newline.reverse ++ trimmed [])
  have hpage : Page.mk w (1 * o.tabWidth) rest = (start d).deeper o.tabWidth w := by
    rw [deeper, start, Nat.zero_add, Nat.one_mul]
    rfl
  have hlines : ({} : Lines).write (.newline (1 * o.tabWidth)) = ({} : Lines).deeper o.tabWidth := by
    rw [Nat.one_mul, Lines.deeper, List.append_nil]
    rfl
  calc (indent (concat [linebreak soft true, d])).lines o
      = (Page.mk [] 0 (⟨1, .broken, linebreak soft true⟩ :: rest)).lines o {} := by
        have hindent : Step o (start (indent (concat [linebreak soft true, d]))) _ := .indent
        rw [Doc.lines, lines_some hindent.step_eq, lines_some Step.concat.step_eq]
        rfl
    _ = ((start d).deeper o.tabWidth w).lines o (({} : Lines).deeper o.tabWidth) := by
        rw [lines_some hnewline.step_eq, ← hpage, ← hlines]
        rfl
    _ = (d.lines (o.narrowed h)).deeper o.tabWidth := lines_deeper h (start d) w {}

end Doc

theorem trimmed_replicate (n : Nat) : Page.trimmed (List.replicate n ' ') = [] := by
  rw [Page.trimmed, List.dropWhile_eq_nil_iff]
  intro c hc
  rw [List.eq_of_mem_replicate hc]
  rfl

theorem withoutBlanks_moved (n : Nat) (line : List Char) :
    withoutBlanks (List.replicate n ' ' ++ line) =
      if withoutBlanks line = [] then [] else List.replicate n ' ' ++ withoutBlanks line := by
  have htrimmed : Page.trimmed (line.reverse ++ List.replicate n ' ') =
      if (Page.trimmed line.reverse).isEmpty then Page.trimmed (List.replicate n ' ')
      else Page.trimmed line.reverse ++ List.replicate n ' ' := List.dropWhile_append
  rw [withoutBlanks, List.reverse_append, List.reverse_replicate, htrimmed]
  by_cases hempty : Page.trimmed line.reverse = []
  · have hline : withoutBlanks line = [] := congrArg List.reverse hempty
    rw [if_pos hline, if_pos (List.isEmpty_iff.mpr hempty), trimmed_replicate]
    rfl
  · have hline : withoutBlanks line ≠ [] := fun h => hempty (List.reverse_eq_nil_iff.mp h)
    rw [if_neg hline, if_neg (mt List.isEmpty_iff.mp hempty), List.reverse_append,
      List.reverse_replicate]
    rfl

theorem mem_withoutBlanks {c : Char} {line : List Char} (h : c ∈ withoutBlanks line) : c ∈ line :=
  List.mem_reverse.mp ((List.dropWhile_sublist _).subset (List.mem_reverse.mp h))

/-- what holds of all characters of lines, holds of them as they are shown -/
theorem Lines.forall_shown {P : Char → Prop} {ls : Lines} (h : ∀ line ∈ ls.all, ∀ c ∈ line, P c) :
    ∀ line ∈ ls.shown, ∀ c ∈ line, P c := by
  intro line hline c hc
  rcases List.mem_append.mp hline with hline | hline
  · obtain ⟨whole, hwhole, rfl⟩ := List.mem_map.mp hline
    exact h whole (List.mem_append_left _ hwhole) c (mem_withoutBlanks hc)
  · exact h line (List.mem_append_right _ hline) c hc

/-- what holds of spaces and of all characters of a document, holds of all characters of its lines -/
theorem Doc.shown_only {P : Char → Prop} (o : Options) {d : Doc} (hspace : P ' ')
    (hd : ∀ c ∈ d.letters, P c) : ∀ line ∈ (d.lines o).shown, ∀ c ∈ line, P c := by
  have hrun : Page.Reached o d (d.lines o) ((Page.start d).run o) := Page.Reached.start.run
  exact Lines.forall_shown (hrun.only hspace hd).2

/-- lines moved to the right; an empty line stays empty, unless it is the last one -/
def movedLines (n : Nat) (lines : List (List Char)) (last : List Char) : List (List Char) :=
  lines.map (fun line => if line = [] then [] else List.replicate n ' ' ++ line) ++
    [List.replicate n ' ' ++ last]

theorem Lines.shown_deeper (n : Nat) (ls : Lines) :
    (ls.deeper n).shown = [] :: movedLines n (ls.done.map withoutBlanks) ls.last := by
  have hmoved : (ls.done.map (List.replicate n ' ' ++ ·)).map withoutBlanks =
      (ls.done.map withoutBlanks).map
        fun line => if line = [] then [] else List.replicate n ' ' ++ line := by
    rw [List.map_map, List.map_map]
    exact List.map_congr_left fun line _ => withoutBlanks_moved n line
  rw [shown, deeper, movedLines, List.map_cons, hmoved]
  rfl

/-- **Indentation moves a text to the right.**  A document whose texts end no lines is laid out on
a page without the room of one indentation.  On the whole page, indented and on a line of its own,
it has the same lines, each behind as many spaces as an indentation has; only the lines that are
empty and not the last one stay empty. -/
theorem Doc.layout_indented {o : Options} (h : o.tabWidth < o.printWidth) (soft : Bool) {d : Doc}
    (hd : ∀ c ∈ d.letters, c ≠ '\n' ∧ c ≠ '\r') :
    ∃ lines last,
      d.layout (o.narrowed h) = o.endOfLine.newline.intercalate (lines ++ [last]) ∧
      (∀ line ∈ lines ++ [last], '\n' ∉ line ∧ '\r' ∉ line) ∧
      (indent (concat [linebreak soft true, d])).layout o =
        o.endOfLine.newline ++
          o.endOfLine.newline.intercalate (movedLines o.tabWidth lines last) := by
  let ls := d.lines (o.narrowed h)
  refine ⟨ls.done.map withoutBlanks, ls.last, d.layout_eq (o.narrowed h), ?_, ?_⟩
  · intro line hline
    have hchars : ∀ c ∈ line, c ≠ '\n' ∧ c ≠ '\r' :=
      d.shown_only (o.narrowed h) (by decide) hd line hline
    exact ⟨fun hc => (hchars _ hc).1 rfl, fun hc => (hchars _ hc).2 rfl⟩
  · have hne : movedLines o.tabWidth (ls.done.map withoutBlanks) ls.last ≠ [] :=
      List.concat_ne_nil _ _
    rw [Doc.layout_eq, lines_indented h, Lines.text, Lines.shown_deeper,
      List.intercalate_cons_of_ne_nil hne]
    rfl

open Doc in
/-- a group that breaks on the narrow page, and an empty line below it -/
theorem Doc.layout_indented_group :
    let o : Options := { printWidth := 8, tabWidth := 2 }
    let d : Doc := concat [group (concat [text "abcd", line, text "ef"]) false, hardline, hardline]
    ∃ lines last,
      d.layout (o.narrowed (by decide)) = o.endOfLine.newline.intercalate (lines ++ [last]) ∧
      (∀ line ∈ lines ++ [last], '\n' ∉ line ∧ '\r' ∉ line) ∧
      o.endOfLine.newline ++ o.endOfLine.newline.intercalate (movedLines o.tabWidth lines last) =
        "\n  abcd\n  ef\n\n  ".toList := by
  intro o d
  have hwidth : o.tabWidth < o.printWidth := by decide
  have htexts : ∀ c ∈ d.letters, c ≠ '\n' ∧ c ≠ '\r' := List.all_iff_forall_prop.mp (by decide)
  obtain ⟨lines, last, hnarrow, hlines, hwide⟩ := layout_indented hwidth false htexts
  refine ⟨lines, last, hnarrow, hlines, ?_⟩
  rw [← hwide]
  decide +kernel

end Reflow
