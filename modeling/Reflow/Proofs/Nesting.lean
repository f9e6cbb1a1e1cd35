import Mathlib.Tactic.Push
import Reflow.Proofs.Run
import Reflow.Source.Token

/-!
# Brackets and the ends of lines

A reader goes through a text from left to right and keeps the brackets that are open.  What stands
between double quotes it ignores.  It counts the lines that end outside of all brackets.

What it finds in a text can be told from the document: a group is laid out flat or broken, but if no
line may end in it outside of brackets, the reader does not see the difference.

* `Nesting`, `Nesting.read`   what a reader keeps, and a text read by it;
* `Doc.scan`                  what is left of this after a document, if it does not hang on the page;
* `Page.Step.reads`           a command leaves to be read what it writes;
* `Doc.read_layout`           the text of a document reads as the document says.
-/

namespace Reflow

open Source (Bracket)

/-! ## reading -/

/-- what a reader keeps: whether it is between quotes, the open brackets with the innermost one first,
and how many lines have ended outside of brackets -/
structure Nesting where
  quoted : Bool := false
  opened : List Bracket := []
  feeds : Nat := 0
  deriving DecidableEq, Repr

namespace Nesting

def brackets : List Bracket := [.round, .square, .curly]

/-- what is kept after a bracket is closed, which has to be the innermost one -/
def close (s : Nesting) (b : Bracket) : Option Nesting :=
  match s.opened with
  | [] => none
  | innermost :: opened => if b = innermost then some { s with opened } else none

/-- what is kept after one more character, unless that closes a bracket that is not the innermost -/
def next (s : Nesting) (c : Char) : Option Nesting :=
  if c = '"' then some { s with quoted := !s.quoted }
  else if s.quoted then some s
  else match brackets.find? (·.opening = c), brackets.find? (·.closing = c) with
    | some b, _ => some { s with opened := b :: s.opened }
    | none, some b => s.close b
    | none, none =>
      if c = '\n' ∧ s.opened = [] then some { s with feeds := s.feeds + 1 } else some s

def read (s : Nesting) (cs : List Char) : Option Nesting := cs.foldlM next s

/-- a character that tells the reader nothing -/
def Plain (c : Char) : Prop := c ∉ '"' :: '\n' :: brackets.flatMap fun b => [b.opening, b.closing]

instance : DecidablePred Plain := fun c =>
  inferInstanceAs (Decidable (c ∉ '"' :: '\n' :: brackets.flatMap fun b => [b.opening, b.closing]))

/-- a text that tells the reader nothing -/
def AllPlain (cs : List Char) : Prop := ∀ c ∈ cs, Plain c

instance : DecidablePred AllPlain := fun cs => List.decidableBAll Plain cs

theorem next_plain {c : Char} (h : Plain c) (s : Nesting) : s.next c = some s := by
  rw [Plain, List.mem_cons, List.mem_cons, List.mem_flatMap] at h
  push Not at h
  obtain ⟨hquote, hfeed, hbracket⟩ := h
  have hopening : brackets.find? (·.opening = c) = none := by
    rw [List.find?_eq_none]
    intro b hb hc
    exact hbracket b hb (of_decide_eq_true hc ▸ List.mem_cons_self)
  have hclosing : brackets.find? (·.closing = c) = none := by
    rw [List.find?_eq_none]
    intro b hb hc
    exact hbracket b hb (of_decide_eq_true hc ▸ List.mem_cons_of_mem _ (List.mem_singleton_self _))
  rw [next, if_neg hquote, hopening, hclosing]
  show (if s.quoted then some s else
    if c = '\n' ∧ s.opened = [] then some { s with feeds := s.feeds + 1 } else some s) = some s
  rw [if_neg (not_and_of_not_left _ hfeed), ite_self]

theorem next_feed (s : Nesting) : s.next '\n' =
    if s.quoted = false ∧ s.opened = [] then some { s with feeds := s.feeds + 1 } else some s := by
  obtain ⟨_ | _, _ | _, feeds⟩ := s <;> rfl

theorem next_opening (b : Bracket) (opened : List Bracket) (feeds : Nat) :
    next ⟨false, opened, feeds⟩ b.opening = some ⟨false, b :: opened, feeds⟩ := by
  cases b <;> rfl

theorem next_closing (b : Bracket) (opened : List Bracket) (feeds : Nat) :
    next ⟨false, b :: opened, feeds⟩ b.closing = some ⟨false, opened, feeds⟩ := by
  cases b <;> rfl

theorem next_quoted {c : Char} (h : c ≠ '"') (opened : List Bracket) (feeds : Nat) :
    next ⟨true, opened, feeds⟩ c = some ⟨true, opened, feeds⟩ := by
  rw [next, if_neg h]
  rfl

theorem read_append (s : Nesting) (cs ds : List Char) :
    s.read (cs ++ ds) = (s.read cs).bind (read · ds) := List.foldlM_append

theorem read_eq_self {s : Nesting} {cs : List Char} (h : ∀ c ∈ cs, s.next c = some s) :
    s.read cs = some s := by
  induction cs with
  | nil => rfl
  | cons c cs ih =>
    obtain ⟨hc, hcs⟩ := List.forall_mem_cons.mp h
    rw [read, List.foldlM_cons, hc]
    exact ih hcs

theorem read_plain {cs : List Char} (h : AllPlain cs) (s : Nesting) : s.read cs = some s :=
  read_eq_self fun c hc => next_plain (h c hc) s

theorem read_spaces (s : Nesting) (n : Nat) : s.read (List.replicate n ' ') = some s := by
  apply read_plain
  intro c hc
  rw [List.eq_of_mem_replicate hc]
  decide

theorem read_newline (s : Nesting) (e : EndOfLine) : s.read e.newline = s.next '\n' := by
  cases e with
  | lf => exact bind_pure (s.next '\n')
  | crlf =>
    rw [EndOfLine.newline, read, List.foldlM_cons, next_plain (by decide)]
    exact bind_pure (s.next '\n')

/-- dropping the blanks at the end of a text makes no difference -/
theorem read_trimmed (s : Nesting) (w : List Char) :
    s.read (Page.trimmed w).reverse = s.read w.reverse := by
  obtain ⟨blanks, hw, hblanks⟩ := Page.exists_blanks w
  have hread (t : Nesting) : t.read blanks.reverse = some t := by
    refine read_plain (fun c hc => ?_) t
    rcases hblanks c (List.mem_reverse.mp hc) with rfl | rfl <;> decide
  calc s.read (Page.trimmed w).reverse
      = s.read (blanks ++ Page.trimmed w).reverse := by
        rw [List.reverse_append, read_append, funext hread, Option.bind_fun_some]
    _ = s.read w.reverse := by rw [← hw]

end Nesting

/-! ## documents -/

namespace Doc

mutual
/-- what is kept after a document that is laid out in a mode, if it is the same for all modes of the
groups in it.  In flat mode this may be a broken group: a soft break has to make no difference. -/
def scan : Doc → Mode → Nesting → Option Nesting
  | .text t, _, s => s.read t.toList
  | .concat parts, mode, s => scanAll parts mode s
  | .group contents _, _, s => contents.scan .flat s
  | .indent contents, mode, s => contents.scan mode s
  | .ifBreak _ _, _, _ => none
  | .breakParent, _, s => some s
  | .linebreak _ hard, mode, s =>
    if mode = .broken ∨ hard then s.next '\n' else if s.next '\n' = some s then some s else none
def scanAll : List Doc → Mode → Nesting → Option Nesting
  | [], _, s => some s
  | d :: ds, mode, s => (d.scan mode s).bind (scanAll ds mode)
end

theorem scanAll_eq (ds : List Doc) (mode : Mode) (s : Nesting) :
    scanAll ds mode s = ds.foldlM (fun s d => d.scan mode s) s := by
  induction ds generalizing s with
  | nil => rfl
  | cons d ds ih =>
    rw [scanAll, List.foldlM_cons, funext ih]
    rfl

mutual
theorem scan_propagate : ∀ (d : Doc) (mode : Mode) (s : Nesting),
    d.propagate.1.scan mode s = d.scan mode s
  | .text _, _, _ => rfl
  | .concat parts, mode, s => scanAll_propagateAll parts mode s
  | .group contents _, _, s => contents.scan_propagate .flat s
  | .indent contents, mode, s => contents.scan_propagate mode s
  | .ifBreak _ _, _, _ => rfl
  | .breakParent, _, _ => rfl
  | .linebreak _ _, _, _ => rfl
theorem scanAll_propagateAll : ∀ (ds : List Doc) (mode : Mode) (s : Nesting),
    scanAll (propagateAll ds).1 mode s = scanAll ds mode s
  | [], _, _ => rfl
  | d :: ds, mode, s =>
    congrArg₂ Option.bind (d.scan_propagate mode s) (funext (scanAll_propagateAll ds mode))
end

mutual
/-- what does not hang on the modes is the same in broken mode -/
theorem scan_broken : ∀ (d : Doc) {s t : Nesting}, d.scan .flat s = some t →
    d.scan .broken s = some t
  | .text _, _, _, h => h
  | .concat parts, _, _, h => scanAll_broken parts h
  | .group _ _, _, _, h => h
  | .indent contents, _, _, h => contents.scan_broken h
  | .ifBreak _ _, _, _, h => h
  | .breakParent, _, _, h => h
  | .linebreak _ hard, s, t, h => by
    rw [scan, if_pos (.inl rfl)]
    rw [scan] at h
    cases hard with
    | true => exact h
    | false =>
      rw [if_neg (by decide)] at h
      split at h
      · next hnext =>
        rw [hnext]
        exact h
      · cases h
theorem scanAll_broken : ∀ (ds : List Doc) {s t : Nesting}, scanAll ds .flat s = some t →
    scanAll ds .broken s = some t
  | [], _, _, h => h
  | d :: ds, s, t, h => by
    obtain ⟨u, hd, hds⟩ := Option.bind_eq_some_iff.mp h
    rw [scanAll, d.scan_broken hd]
    exact scanAll_broken ds hds
end

end Doc

/-! ## a run -/

namespace Page
variable {o : Options} {p q : Page} {t : Nesting}

def scanCommands (todo : List Command) (s : Nesting) : Option Nesting :=
  todo.foldlM (fun s c => c.doc.scan c.mode s) s

theorem scanCommands_spread (level : Nat) (mode : Mode) (parts : List Doc) (s : Nesting) :
    scanCommands (Command.spread level mode parts) s = Doc.scanAll parts mode s := by
  rw [scanCommands, Command.spread, List.foldlM_map, Doc.scanAll_eq]

/-- what is written and what is to be laid out read as `t` together -/
def Reads (p : Page) (t : Nesting) : Prop :=
  (Nesting.read {} p.written.reverse).bind (scanCommands p.todo) = some t

theorem reads_cons {w : List Char} {c : Nat} {command : Command} {rest : List Command} :
    (Page.mk w c (command :: rest)).Reads t ↔ ∃ s u, Nesting.read {} w.reverse = some s ∧
      command.doc.scan command.mode s = some u ∧ scanCommands rest u = some t := by
  rw [Reads, Option.bind_eq_some_iff]
  constructor
  · rintro ⟨s, hs, h⟩
    rw [scanCommands, List.foldlM_cons] at h
    obtain ⟨u, hu, h⟩ := Option.bind_eq_some_iff.mp h
    exact ⟨s, u, hs, hu, h⟩
  · rintro ⟨s, u, hs, hu, h⟩
    refine ⟨s, hs, ?_⟩
    rw [scanCommands, List.foldlM_cons]
    exact Option.bind_eq_some_iff.mpr ⟨u, hu, h⟩

theorem reads_of_written {w : List Char} {c : Nat} {rest : List Command} {u : Nesting}
    (hw : Nesting.read {} w.reverse = some u) (h : scanCommands rest u = some t) :
    (Page.mk w c rest).Reads t := Option.bind_eq_some_iff.mpr ⟨u, hw, h⟩

theorem Step.reads (h : Step o p q) (hp : p.Reads t) : q.Reads t := by
  cases h with
  | text =>
    obtain ⟨s, u, hs, hu, hrest⟩ := reads_cons.mp hp
    refine reads_of_written ?_ hrest
    rw [List.reverse_append, List.reverse_reverse, Nesting.read_append, hs]
    exact hu
  | concat =>
    obtain ⟨s, u, hs, hu, hrest⟩ := reads_cons.mp hp
    refine reads_of_written hs ?_
    rw [scanCommands, List.foldlM_append]
    refine Option.bind_eq_some_iff.mpr ⟨u, ?_, hrest⟩
    exact (scanCommands_spread _ _ _ s).trans hu
  | ifBreak =>
    obtain ⟨s, u, -, hu, -⟩ := reads_cons.mp hp
    cases hu
  | softline =>
    obtain ⟨s, u, hs, hu, hrest⟩ := reads_cons.mp hp
    rw [Doc.scan, if_neg (not_or.mpr ⟨nofun, nofun⟩)] at hu
    split at hu
    · cases hu
      exact reads_of_written hs hrest
    · cases hu
  | space =>
    obtain ⟨s, u, hs, hu, hrest⟩ := reads_cons.mp hp
    rw [Doc.scan, if_neg (not_or.mpr ⟨nofun, nofun⟩)] at hu
    split at hu
    · cases hu
      refine reads_of_written ?_ hrest
      rw [List.reverse_cons, Nesting.read_append, hs]
      exact Nesting.read_spaces s 1
    · cases hu
  | newline h =>
    obtain ⟨s, u, hs, hu, hrest⟩ := reads_cons.mp hp
    rw [Doc.scan, if_pos h] at hu
    refine reads_of_written ?_ hrest
    rw [List.reverse_append, List.reverse_append, List.reverse_reverse, List.reverse_replicate,
      List.append_assoc, Nesting.read_append, Nesting.read_trimmed, hs, Option.bind_some,
      Nesting.read_append, Nesting.read_newline, hu]
    exact Nesting.read_spaces u _
  | unfitted =>
    obtain ⟨s, u, hs, hu, hrest⟩ := reads_cons.mp hp
    exact reads_cons.mpr ⟨s, u, hs, Doc.scan_broken _ hu, hrest⟩
  | marked =>
    obtain ⟨s, u, hs, hu, hrest⟩ := reads_cons.mp hp
    exact reads_cons.mpr ⟨s, u, hs, Doc.scan_broken _ hu, hrest⟩
  | _ => exact hp

theorem read_run (o : Options) (p : Page) (hp : p.Reads t) :
    Nesting.read {} (p.run o).written.reverse = some t := by
  induction p using induct_step o with
  | stop p hstop =>
    obtain ⟨w, c, todo⟩ := p
    cases todo with
    | nil =>
      rw [run_none hstop]
      obtain ⟨s, hs, ht⟩ := Option.bind_eq_some_iff.mp hp
      rw [hs]
      exact ht
    | cons command todo => cases hstop
  | step p q hq ih =>
    rw [run_some hq]
    exact ih ((step_iff.mp hq).reads hp)

end Page

theorem Doc.read_layout (o : Options) {d : Doc} {t : Nesting} (h : d.scan .broken {} = some t) :
    Nesting.read {} (d.layout o) = some t := by
  apply Page.read_run o (Page.start d)
  refine Page.reads_cons.mpr ⟨{}, t, rfl, ?_, rfl⟩
  rw [← h]
  exact d.scan_propagate .broken {}

end Reflow
