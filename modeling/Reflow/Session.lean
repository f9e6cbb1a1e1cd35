import Reflow.Format

/-!
# Sessions

A session holds the text that was read last, with its tree once it is asked for, and the text that
formatting gave last.  It goes on step by step; a step that fails leaves both texts as they are.

* `Session`        what is held;
* `Session.Step`   what can be asked;
* `Session.next`   one step, with its answer;
* `Session.run`    the answers to several steps.
-/

namespace Reflow

/-- what is held from one step to the next -/
structure Session where
  parsed? : Option Parsed := none
  /-- the text that formatting gave last -/
  last : String := ""

namespace Session

/-- what can be asked of a session -/
inductive Step where
  /-- reads a text -/
  | parse (text : String) (options : ParseRequest)
  /-- takes a text with what is said to have come of reading it, but not a tree kept of it -/
  | load (p : Parsed)
  /-- asks for the tree to print -/
  | root
  | diagnostics
  /-- formats the text that was read last, or the given one if there is none -/
  | format (text : String) (options : OptionsRequest) (parse? : Option ParseRequest)
  /-- formats the text that formatting gave last -/
  | formatLast (options : OptionsRequest) (parse? : Option ParseRequest)

/-- the answer to a step -/
inductive Answer where
  | parsed (p : Parsed)
  /-- the tree, and whether it had been asked for before -/
  | root (cached : Bool) (n : Node)
  | diagnostics (ds : List Diagnostic)
  | formatted (f : Formatted)

/-- the text that was read last, of which something is asked -/
def current (s : Session) (asked : String) : Except FormatError Parsed :=
  match s.parsed? with
  | some p => .ok p
  | none => .error (.nothingRead asked)

/-- the session after a text was formatted -/
def noting (s : Session) (r : Except FormatError Formatted) :
    Session × Except FormatError Answer :=
  match r with
  | .ok f => ({ s with last := f.text }, .ok (.formatted f))
  | .error e => (s, .error e)

/-- one step, with its answer; `g` says how texts are read -/
def next (g : Source.Grammar) (s : Session) : Step → Session × Except FormatError Answer
  | .parse text options =>
    match options.resolve? with
    | some o =>
      let p := Parsed.ofText g text o
      ({ s with parsed? := some p }, .ok (.parsed p))
    | none => (s, .error .version)
  | .load p =>
    let p := p.fresh
    ({ s with parsed? := some p }, .ok (.parsed p))
  | .root =>
    match s.current "ast_root" with
    | .error e => (s, .error e)
    | .ok p =>
      ({ s with parsed? := some p.keepTree }, p.tree.map (.root p.kept?.isSome))
  | .diagnostics => (s, (s.current "diagnostics").map fun p => .diagnostics p.diagnostics)
  | .format text options parse? =>
    match Format.resolve options parse?, s.parsed? with
    | .error e, _ => (s, .error e)
    | .ok (o, po?), none => s.noting ((Parsed.ofText g text (po?.getD {})).formatted o)
    | .ok (_, some _), some _ => (s, .error .readBefore)
    | .ok (o, none), some p =>
      let (p, r) := p.format o
      { s with parsed? := some p }.noting r
  | .formatLast options parse? => s.noting (Format.run g s.last options parse?)

/-- the answers to several steps -/
def run (g : Source.Grammar) : Session → List Step → List (Except FormatError Answer)
  | _, [] => []
  | s, step :: steps =>
    let (s, answer) := s.next g step
    answer :: run g s steps

end Session

end Reflow
