import Reflow.Doc.Break
import Reflow.Options

/-!
# Layout

The engine turns a document into text.  It keeps a stack of commands, each a document with the
indentation level and the mode it is to be laid out in, and takes them one at a time.  A group is
laid out flat when the rest of its line fits on the page.

* `Mode`, `Command`   what is still to be laid out, and how;
* `fits`              whether the line that the next command is on stays within a width;
* `Page`              what has been written so far, the column, and the stack;
* `Page.step`         takes one command;
* `Page.run`          takes all of them: it ends because each step lowers `Command.weights`;
* `Doc.render`        the text of a document.

The characters written so far are kept in reverse, so that blanks at the end of the line are
dropped from the front of the list (`trimmed`).
-/

namespace Reflow

/-- how the line breaks of a command are laid out -/
inductive Mode where
  | flat
  | broken
  deriving DecidableEq, Repr

/-- a document that is still to be laid out -/
structure Command where
  level : Nat
  mode : Mode
  doc : Doc

namespace Command

/-- the number of fragments on a stack of commands -/
def weights : List Command → Nat
  | [] => 0
  | c :: cs => c.doc.weight + weights cs

/-- one command for each part, in the same mode and at the same level -/
def spread (level : Nat) (mode : Mode) (parts : List Doc) : List Command :=
  parts.map (⟨level, mode, ·⟩)

theorem weights_append (cs ds : List Command) : weights (cs ++ ds) = weights cs + weights ds := by
  induction cs with
  | nil => simp [weights]
  | cons c cs ih => simp [weights, ih, Nat.add_assoc]

theorem weights_spread (level : Nat) (mode : Mode) (parts : List Doc) :
    weights (spread level mode parts) = Doc.weightAll parts := by
  induction parts with
  | nil => rfl
  | cons d ds ih => simpa [spread, weights, Doc.weightAll] using ih

end Command

/-- the half of an `ifBreak` that a mode selects -/
def Mode.choose {α : Type} (mode : Mode) (broken flat : α) : α :=
  match mode with
  | .broken => broken
  | .flat => flat

/-- whether the line that starts with these commands, up to its first line break, needs at most
`width` columns -/
def fits (todo : List Command) (width : Int) : Bool :=
  if width < 0 then false
  else match todo with
    | [] => true
    | ⟨level, mode, doc⟩ :: rest =>
      match doc with
      | .text s => fits rest (width - s.length)
      | .concat parts => fits (Command.spread level mode parts ++ rest) width
      | .indent contents => fits (⟨level, mode, contents⟩ :: rest) width
      | .group contents shouldBreak =>
        fits (⟨level, if shouldBreak then .broken else mode, contents⟩ :: rest) width
      | .ifBreak broken flat => fits (⟨level, mode, mode.choose broken flat⟩ :: rest) width
      | .linebreak soft hard =>
        if mode = .broken ∨ hard then true else fits rest (if soft then width else width - 1)
      | .breakParent => fits rest width
termination_by Command.weights todo
decreasing_by
  all_goals
    simp only [Command.weights, Command.weights_append, Command.weights_spread, Doc.weight]
    try (cases mode <;> simp only [Mode.choose])
    all_goals omega

/-- what has been written, and what is still to be laid out -/
structure Page where
  /-- the characters written so far, the last one first -/
  written : List Char
  /-- the column of the next character -/
  column : Nat
  todo : List Command

namespace Page

/-- a page before anything is laid out -/
def start (d : Doc) : Page := ⟨[], 0, [⟨0, .broken, d.propagateBreaks⟩]⟩

/-- the characters written so far without the spaces and tabs at their end -/
def trimmed (written : List Char) : List Char :=
  written.dropWhile fun c => c == ' ' || c == '\t'

/-- the page after one more command, if there is one -/
def step (o : Options) (p : Page) : Option Page :=
  match p.todo with
  | [] => none
  | ⟨level, mode, doc⟩ :: rest => some <|
    match doc with
    | .text s => ⟨s.toList.reverse ++ p.written, p.column + s.length, rest⟩
    | .concat parts => { p with todo := Command.spread level mode parts ++ rest }
    | .indent contents => { p with todo := ⟨level + 1, mode, contents⟩ :: rest }
    | .group contents shouldBreak =>
      let flat : Command := ⟨level, .flat, contents⟩
      let isFlat := !shouldBreak &&
        (mode = .flat || fits (flat :: rest) ((o.printWidth : Int) - p.column))
      { p with todo := (if isFlat then flat else ⟨level, .broken, contents⟩) :: rest }
    | .ifBreak broken flat => { p with todo := ⟨level, mode, mode.choose broken flat⟩ :: rest }
    | .linebreak soft hard =>
      if mode = .flat ∧ !hard then
        if soft then { p with todo := rest } else ⟨' ' :: p.written, p.column + 1, rest⟩
      else
        let indentation := level * o.tabWidth
        ⟨List.replicate indentation ' ' ++ (o.endOfLine.newline.reverse ++ trimmed p.written),
          indentation, rest⟩
    | .breakParent => { p with todo := rest }

theorem weights_step {o : Options} {p q : Page} (h : p.step o = some q) :
    Command.weights q.todo < Command.weights p.todo := by
  unfold step at h
  split at h
  · cases h
  · next level mode doc rest htodo =>
    injection h with h
    subst h
    rw [htodo]
    have hpos := doc.weight_pos
    cases doc with
    | text s => simp only [Command.weights]; omega
    | concat parts =>
      simp only [Command.weights, Command.weights_append, Command.weights_spread, Doc.weight]; omega
    | group contents shouldBreak =>
      dsimp only
      split <;> simp only [Command.weights, Doc.weight] <;> omega
    | indent contents => simp only [Command.weights, Doc.weight]; omega
    | ifBreak broken flat =>
      cases mode <;> simp only [Command.weights, Doc.weight, Mode.choose] <;> omega
    | breakParent => simp only [Command.weights]; omega
    | linebreak soft hard =>
      dsimp only
      split
      · split <;> simp only [Command.weights] <;> omega
      · simp only [Command.weights]; omega

/-- the page after all its commands -/
def run (o : Options) (p : Page) : Page :=
  match _h : p.step o with
  | none => p
  | some q => run o q
termination_by Command.weights p.todo
decreasing_by exact weights_step _h

end Page

namespace Doc

/-- the characters of a document laid out on a page -/
def layout (o : Options) (d : Doc) : List Char := ((Page.start d).run o).written.reverse

/-- the text of a document laid out on a page -/
def render (o : Options) (d : Doc) : String := String.ofList (d.layout o)

end Doc

end Reflow
