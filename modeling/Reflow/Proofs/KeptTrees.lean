import Mathlib.Data.List.Induction
import Reflow.Proofs.Supported
import Reflow.Session
import Reflow.Source.Read

/-!
# The tree that a session keeps

A session makes the tree of a text when it is first needed, and keeps it until another text is
read.  None of its answers shows that, but for the one bit that says so: they are the answers of a
session that makes every tree anew.

* `Reading`, `Forgetful`            a text without a kept tree, and a session that keeps none;
* `Session.Coherent`                every tree that is kept is the one its text would give now;
* `Session.forgotten_next`          a step does what it does without kept trees;
* `Session.keepsTree_next`          the steps after which a tree is kept;
* `Session.answers_of_kept_trees`   all this along every session.
-/

namespace Reflow

open Session (Step Answer)
open Source (sampleModule sampleText)

theorem exists_of_map_ok {ε α β : Type} {r : Except ε α} {f : α → β} {b : β}
    (h : r.map f = .ok b) : ∃ a, r = .ok a ∧ f a = b := by
  cases r with
  | ok a => exact ⟨a, rfl, Except.ok.inj h⟩
  | error e => cases h

/-! ## sessions that keep no tree -/

/-- what came of reading a text -/
structure Reading where
  text : String
  module? : Option Source.Module
  diagnostics : List Diagnostic

def Parsed.reading (p : Parsed) : Reading := ⟨p.text, p.module?, p.diagnostics⟩

namespace Reading

def tree (r : Reading) : Except FormatError Node :=
  match r.module? with
  | some m => .ok (m.lower r.text)
  | none => .error .notParsed

def formatted (r : Reading) (o : Options) : Except FormatError Formatted :=
  if Diagnostic.hasErrors r.diagnostics then
    .ok { text := r.text, changed := false, diagnostics := r.diagnostics }
  else do
    let n ← r.tree
    let d ← n.print.mapError .print
    let text := d.render o
    return { text, changed := text != r.text, diagnostics := r.diagnostics }

end Reading

/-- a session that makes a tree anew whenever one is needed -/
structure Forgetful where
  reading? : Option Reading := none
  last : String := ""

namespace Forgetful

def current (s : Forgetful) (asked : String) : Except FormatError Reading :=
  match s.reading? with
  | some r => .ok r
  | none => .error (.nothingRead asked)

def noting (s : Forgetful) (r : Except FormatError Formatted) :
    Forgetful × Except FormatError Answer :=
  match r with
  | .ok f => ({ s with last := f.text }, .ok (.formatted f))
  | .error e => (s, .error e)

/-- what a new text is read as -/
def read (g : Source.Grammar) (text : String) (options : Options × Option ParseOptions) :
    Except FormatError Formatted :=
  (Parsed.ofText g text (options.2.getD {})).reading.formatted options.1

def next (g : Source.Grammar) (s : Forgetful) : Step → Forgetful × Except FormatError Answer
  | .parse text options =>
    match options.resolve? with
    | some o =>
      let p := Parsed.ofText g text o
      ({ s with reading? := some p.reading }, .ok (.parsed p))
    | none => (s, .error .version)
  | .load p => ({ s with reading? := some p.reading }, .ok (.parsed p.fresh))
  | .root => (s, do
    let r ← s.current "ast_root"
    return .root false (← r.tree))
  | .diagnostics => (s, do
    let r ← s.current "diagnostics"
    return .diagnostics r.diagnostics)
  | .format text options parse? =>
    match Format.resolve options parse?, s.reading? with
    | .error e, _ => (s, .error e)
    | .ok resolved, none => s.noting (read g text resolved)
    | .ok (_, some _), some _ => (s, .error .readBefore)
    | .ok (o, none), some r => s.noting (r.formatted o)
  | .formatLast options parse? => s.noting (Format.resolve options parse? >>= read g s.last)

end Forgetful

/-! ## one text -/

namespace Parsed
variable {p : Parsed}

theorem tree_eq (h : p.KeepsOwn) : p.tree = p.reading.tree := by
  have hmodule : p.reading.module? = p.module? := rfl
  rw [tree, tree?_eq h, Reading.tree, hmodule]
  cases p.module? <;> rfl

theorem formatted_eq (h : p.KeepsOwn) (o : Options) : p.formatted o = p.reading.formatted o := by
  have herrors : p.hasErrors = Diagnostic.hasErrors p.reading.diagnostics := rfl
  rw [formatted, Reading.formatted, tree_eq h, herrors]
  rfl

theorem reading_format (p : Parsed) (o : Options) : (p.format o).1.reading = p.reading := by
  rw [format]
  split <;> rfl

theorem keepsOwn_fresh (p : Parsed) : p.fresh.KeepsOwn := fun _ hn => nomatch hn

end Parsed

/-! ## one step -/

namespace Session
variable {g : Source.Grammar} {s : Session}

/-- every tree that is kept is the one its text would give now -/
def Coherent (s : Session) : Prop := ∀ p ∈ s.parsed?, p.KeepsOwn

def forget (s : Session) : Forgetful := ⟨s.parsed?.map Parsed.reading, s.last⟩

/-- an answer that does not say whether the tree was kept -/
def Answer.unmarked : Answer → Answer
  | .root _ n => .root false n
  | a => a

theorem coherent_some {p : Parsed} {last : String} (h : p.KeepsOwn) :
    Coherent ⟨some p, last⟩ := by
  intro q hq
  rw [← Option.some.inj hq]
  exact h

theorem coherent_noting (h : s.Coherent) (r : Except FormatError Formatted) :
    (s.noting r).1.Coherent := by
  cases r <;> exact h

theorem coherent_next (h : s.Coherent) (step : Step) : (s.next g step).1.Coherent := by
  obtain ⟨parsed?, last⟩ := s
  cases step with
  | parse text options =>
    rw [next]
    split
    · exact coherent_some (Parsed.keepsOwn_ofText g _ _)
    · exact h
  | load p => exact coherent_some p.keepsOwn_fresh
  | root =>
    cases parsed? with
    | none => exact h
    | some p => exact coherent_some (Parsed.keepsOwn_keepTree (h p rfl))
  | diagnostics => exact h
  | format text options parse? =>
    rw [next]
    split
    · exact h
    · exact coherent_noting h _
    · exact h
    · next o p _ hp =>
      obtain rfl : parsed? = some p := hp
      exact coherent_noting (coherent_some (Parsed.keepsOwn_format (h p rfl) o)) _
  | formatLast options parse? => exact coherent_noting h _

/-- a session and an answer, without what tells of kept trees -/
def forgotten (r : Session × Except FormatError Answer) : Forgetful × Except FormatError Answer :=
  (r.1.forget, r.2.map Answer.unmarked)

theorem forgotten_noting (s : Session) (r : Except FormatError Formatted) :
    forgotten (s.noting r) = s.forget.noting r := by
  cases r <;> rfl

theorem run_eq (g : Source.Grammar) (text : String) (options : OptionsRequest)
    (parse? : Option ParseRequest) :
    Format.run g text options parse? = Format.resolve options parse? >>= Forgetful.read g text := by
  rw [Format.run]
  congr 1
  funext ⟨o, po?⟩
  exact Parsed.formatted_eq (Parsed.keepsOwn_ofText g text (po?.getD {})) o

/-- a step leaves what it would leave without kept trees, and gives the same answer -/
theorem forgotten_next (h : s.Coherent) (step : Step) :
    forgotten (s.next g step) = s.forget.next g step := by
  obtain ⟨parsed?, last⟩ := s
  cases step with
  | parse text options =>
    rw [next, Forgetful.next]
    cases options.resolve? <;> rfl
  | load p => rfl
  | root =>
    cases parsed? with
    | none => rfl
    | some p =>
      show (Forgetful.mk (some p.reading) last, (p.tree.map _).map Answer.unmarked) =
        (Forgetful.mk (some p.reading) last, p.reading.tree >>= _)
      rw [Parsed.tree_eq (h p rfl)]
      cases p.reading.tree <;> rfl
  | diagnostics => cases parsed? <;> rfl
  | format text options parse? =>
    rw [next, Forgetful.next]
    cases Format.resolve options parse? with
    | error e => rfl
    | ok resolved =>
      obtain ⟨o, po?⟩ := resolved
      cases parsed? with
      | none =>
        have hread := Parsed.formatted_eq (Parsed.keepsOwn_ofText g text (po?.getD {})) o
        show forgotten (noting ⟨none, last⟩ ((Parsed.ofText g text (po?.getD {})).formatted o)) = _
        rw [hread, forgotten_noting]
        rfl
      | some p =>
        cases po? with
        | some po => rfl
        | none =>
          have hforget : forget ⟨some (p.format o).1, last⟩ = ⟨some p.reading, last⟩ := by
            rw [forget, Option.map_some, p.reading_format o]
          have hformatted : (p.format o).2 = p.reading.formatted o :=
            Parsed.formatted_eq (h p rfl) o
          show forgotten (noting ⟨some (p.format o).1, last⟩ (p.format o).2) = _
          rw [forgotten_noting, hforget, hformatted]
          rfl
  | formatLast options parse? =>
    show forgotten (noting _ (Format.run g last options parse?)) = _
    rw [run_eq, forgotten_noting]
    rfl

/-! ## when a tree is kept -/

/-- whether a step reads another text -/
def Step.replaces : Step → Bool
  | .parse _ options => options.resolve?.isSome
  | .load _ => true
  | _ => false

/-- whether a step formats a text -/
def Step.formats : Step → Bool
  | .format .. | .formatLast .. => true
  | _ => false

/-- whether a tree is kept -/
def keepsTree (s : Session) : Bool := s.parsed?.any (·.kept?.isSome)

/-- that a step needs the tree of the text that was read last, and that there is one: it asks for it,
or formats that text under options that are not refused.  The step may still fail. -/
def AsksTree (g : Source.Grammar) (s : Session) : Step → Prop
  | .root => ∃ a, (s.next g .root).2 = .ok a
  | .format _ options none =>
    (∃ o, options.resolve = .ok o) ∧ ∃ p ∈ s.parsed?, p.hasErrors = false ∧ ∃ m, p.module? = some m
  | _ => False

theorem keepsTree_noting (s : Session) (r : Except FormatError Formatted) :
    (s.noting r).1.keepsTree = s.keepsTree := by
  cases r <;> rfl

theorem isSome_tree? {p : Parsed} (h : p.KeepsOwn) : p.tree?.isSome = p.module?.isSome := by
  rw [Parsed.tree?_eq h, Option.isSome_map]

/-- a tree that is kept has a module that it was made from -/
theorem isSome_module_of_kept {p : Parsed} (h : p.KeepsOwn) (hkept : p.kept?.isSome = true) :
    p.module?.isSome = true := by
  obtain ⟨n, hn⟩ := Option.isSome_iff_exists.mp hkept
  have hmodule := h n hn
  rw [← Option.isSome_map, hmodule]
  rfl

theorem isSome_kept_format {p : Parsed} (h : p.KeepsOwn) (o : Options) :
    (p.format o).1.kept?.isSome = true ↔
      (p.hasErrors = false ∧ ∃ m, p.module? = some m) ∨ p.kept?.isSome = true := by
  have hmodule := isSome_module_of_kept h
  have hkeep : p.keepTree.kept?.isSome = p.module?.isSome := isSome_tree? h
  rw [← Option.isSome_iff_exists, Parsed.format]
  cases herrors : p.hasErrors with
  | true => simp
  | false =>
    show p.keepTree.kept?.isSome = true ↔ _
    rw [hkeep]
    constructor
    · exact fun hm => .inl ⟨rfl, hm⟩
    · rintro (⟨-, hm⟩ | hkept)
      · exact hm
      · exact hmodule hkept

theorem isSome_kept_ofText (g : Source.Grammar) (text : String) (o : ParseOptions) :
    (Parsed.ofText g text o).kept?.isSome = false := by
  unfold Parsed.ofText
  split <;> rfl

theorem exists_tree_ok_iff (p : Parsed) (f : Node → Answer) :
    (∃ a, p.tree.map f = .ok a) ↔ p.tree?.isSome = true := by
  rw [Parsed.tree]
  cases p.tree? with
  | none =>
    constructor
    · rintro ⟨_, ha⟩
      cases ha
    · intro hn
      cases hn
  | some n => exact ⟨fun _ => rfl, fun _ => ⟨f n, rfl⟩⟩

theorem resolve_eq (options : OptionsRequest) :
    Format.resolve options none =
      (options.resolve.mapError FormatError.options).map (·, none) := by
  rw [Format.resolve]
  cases options.resolve <;> rfl

theorem resolve_reading {options : OptionsRequest} {r : ParseRequest} {o : Options} :
    Format.resolve options (some r) ≠ .ok (o, none) := by
  rw [Format.resolve]
  intro h
  cases ho : options.resolve with
  | error e =>
    rw [ho] at h
    cases h
  | ok o' =>
    rw [ho] at h
    cases hr : r.resolve? <;> simp [hr, Except.mapError, bind, Except.bind, pure, Except.pure] at h

/-- options for reading are refused, or there is no text that was read before -/
theorem keepsTree_next_reading (g : Source.Grammar) (s : Session) (text : String)
    (options : OptionsRequest) (r : ParseRequest) :
    (s.next g (.format text options (some r))).1.keepsTree = s.keepsTree := by
  rw [next]
  split
  · rfl
  · exact keepsTree_noting s _
  · rfl
  · next hresolve _ => exact absurd hresolve resolve_reading

/-- a tree is kept after a step that needs it, and as before after one that reads no other text -/
theorem keepsTree_next (h : s.Coherent) (step : Step) :
    (s.next g step).1.keepsTree = true ↔
      s.AsksTree g step ∨ step.replaces = false ∧ s.keepsTree = true := by
  obtain ⟨parsed?, last⟩ := s
  cases step with
  | parse text options =>
    have hasks : ¬ AsksTree g ⟨parsed?, last⟩ (.parse text options) := id
    rw [next, Step.replaces]
    cases options.resolve? with
    | none => simp [hasks]
    | some o =>
      have hfresh := isSome_kept_ofText g text o
      simp [keepsTree, hfresh, hasks]
  | load p => simp [next, AsksTree, Step.replaces, keepsTree, Parsed.fresh]
  | root =>
    cases parsed? with
    | none =>
      have hnone : ¬ AsksTree g ⟨none, last⟩ .root := fun ⟨_, ha⟩ => (nomatch ha)
      simp [next, current, keepsTree, hnone]
    | some p =>
      have hp : p.KeepsOwn := h p rfl
      have hasks : AsksTree g ⟨some p, last⟩ .root ↔ p.tree?.isSome = true := exists_tree_ok_iff p _
      have hkept : p.kept?.isSome = true → p.tree?.isSome = true := fun hk => by
        rw [isSome_tree? hp]
        exact isSome_module_of_kept hp hk
      rw [hasks]
      show p.tree?.isSome = true ↔ _ ∨ _ ∧ p.kept?.isSome = true
      simpa [Step.replaces] using hkept
  | diagnostics => simp [next, AsksTree, Step.replaces]
  | format text options parse? =>
    cases parse? with
    | some r =>
      have hnext := keepsTree_next_reading g ⟨parsed?, last⟩ text options r
      simp [hnext, AsksTree, Step.replaces]
    | none =>
      have hasks : AsksTree g ⟨parsed?, last⟩ (.format text options none) ↔
          (∃ o, options.resolve = .ok o) ∧
            ∃ p ∈ parsed?, p.hasErrors = false ∧ ∃ m, p.module? = some m := Iff.rfl
      rw [hasks, next, resolve_eq]
      cases options.resolve with
      | error e => simp [Except.map, Except.mapError, Step.replaces]
      | ok o =>
        cases parsed? with
        | none => simp [Except.map, Except.mapError, Step.replaces, keepsTree_noting]
        | some p =>
          have hformat := isSome_kept_format (h p rfl) o
          have hnoting := keepsTree_noting ⟨some (p.format o).1, last⟩ (p.format o).2
          show (noting ⟨some (p.format o).1, last⟩ (p.format o).2).1.keepsTree = true ↔ _
          rw [hnoting]
          simpa [Step.replaces, keepsTree] using hformat
  | formatLast options parse? =>
    have hnext : (next g ⟨parsed?, last⟩ (.formatLast options parse?)).1.keepsTree =
      keepsTree ⟨parsed?, last⟩ := keepsTree_noting _ _
    simp [hnext, AsksTree, Step.replaces]

/-! ## whole sessions -/

/-- the session after several steps -/
def after (g : Source.Grammar) (s : Session) (steps : List Step) : Session :=
  steps.foldl (fun s step => (s.next g step).1) s

theorem after_concat (s : Session) (before : List Step) (step : Step) :
    s.after g (before ++ [step]) = ((s.after g before).next g step).1 := List.foldl_concat ..

theorem run_append (s : Session) (before later : List Step) :
    s.run g (before ++ later) = s.run g before ++ (s.after g before).run g later := by
  induction before generalizing s with
  | nil => rfl
  | cons step before ih =>
    show (s.next g step).2 :: (s.next g step).1.run g (before ++ later) = _
    rw [ih]
    rfl

end Session

def Forgetful.after (g : Source.Grammar) (s : Forgetful) (steps : List Step) : Forgetful :=
  steps.foldl (fun s step => (s.next g step).1) s

theorem Forgetful.reading_next {g : Source.Grammar} {s : Forgetful} {step : Step}
    (h : step.replaces = false) :
    (s.next g step).1.reading? = s.reading? := by
  have hnoting : ∀ r, (s.noting r).1.reading? = s.reading? := fun r => by cases r <;> rfl
  cases step with
  | parse text options =>
    have hrefused : options.resolve? = none := Option.not_isSome_iff_eq_none.mp (ne_true_of_eq_false h)
    rw [next, hrefused]
  | load p => cases h
  | root | diagnostics => rfl
  | format text options parse? =>
    rw [next]
    split
    · rfl
    · exact hnoting _
    · rfl
    · exact hnoting _
  | formatLast options parse? => exact hnoting _

namespace Session
variable {g : Source.Grammar} {s : Session}

theorem coherent_after (h : s.Coherent) (before : List Step) : (s.after g before).Coherent := by
  induction before generalizing s with
  | nil => exact h
  | cons step before ih => exact ih (coherent_next h step)

theorem forget_after (h : s.Coherent) (before : List Step) :
    (s.after g before).forget = s.forget.after g before := by
  induction before generalizing s with
  | nil => rfl
  | cons step before ih =>
    have hstep : (s.next g step).1.forget = (s.forget.next g step).1 :=
      congrArg Prod.fst (forgotten_next h step)
    show ((s.next g step).1.after g before).forget = (s.forget.next g step).1.after g before
    rw [ih (coherent_next h step), hstep]

theorem coherent_start : Coherent {} := fun _ hp => nomatch hp

theorem noting_ne_root (s : Session) (r : Except FormatError Formatted) {cached : Bool} {n : Node} :
    (s.noting r).2 ≠ .ok (.root cached n) := by
  cases r <;> exact fun h => nomatch h

/-- the bit that an answer holds -/
theorem cached_eq {step : Step} {cached : Bool} {n : Node}
    (h : (s.next g step).2 = .ok (.root cached n)) : cached = s.keepsTree := by
  obtain ⟨parsed?, last⟩ := s
  cases step with
  | parse text options =>
    rw [next] at h
    split at h <;> cases h
  | load p => cases h
  | root =>
    cases parsed? with
    | none => cases h
    | some p =>
      replace h : p.tree.map (Answer.root p.kept?.isSome) = .ok (.root cached n) := h
      obtain ⟨n', -, hn⟩ := exists_of_map_ok h
      cases hn
      rfl
  | diagnostics => cases parsed? <;> cases h
  | format text options parse? =>
    rw [next] at h
    split at h
    · cases h
    · exact absurd h (noting_ne_root _ _)
    · cases h
    · exact absurd h (noting_ne_root _ _)
  | formatLast options parse? => exact absurd h (noting_ne_root _ _)

/-- that the text which formatting gave last is the one that a step gave, if it gave one -/
structure Notes (last : String) (r : Session × Except FormatError Answer) : Prop where
  formatted : ∀ f, r.2 = .ok (.formatted f) → r.1.last = f.text
  other : (∀ f, r.2 ≠ .ok (.formatted f)) → r.1.last = last

theorem notes_noting (s : Session) (r : Except FormatError Formatted) :
    Notes s.last (s.noting r) := by
  cases r with
  | ok f =>
    refine ⟨fun g hg => ?_, fun h => absurd rfl (h f)⟩
    cases hg
    rfl
  | error e => exact ⟨fun f hf => (nomatch hf), fun _ => rfl⟩

theorem notes_error (s : Session) (e : FormatError) : Notes s.last (s, .error e) :=
  ⟨fun _ hf => (nomatch hf), fun _ => rfl⟩

theorem formats_of_formatted {step : Step} {f : Formatted}
    (h : (s.next g step).2 = .ok (.formatted f)) : step.formats = true := by
  cases step with
  | parse text options =>
    rw [next] at h
    split at h <;> cases h
  | load p => cases h
  | root =>
    rw [next] at h
    split at h
    · cases h
    · obtain ⟨n, -, hn⟩ := exists_of_map_ok h
      cases hn
  | diagnostics =>
    obtain ⟨p, -, hp⟩ := exists_of_map_ok h
    cases hp
  | format text options parse? => rfl
  | formatLast options parse? => rfl

theorem last_of_not_formats {step : Step} (h : step.formats = false) :
    (s.next g step).1.last = s.last := by
  cases step with
  | parse text options =>
    rw [next]
    split <;> rfl
  | load p => rfl
  | root =>
    rw [next]
    split <;> rfl
  | diagnostics => rfl
  | format text options parse? => cases h
  | formatLast options parse? => cases h

theorem notes_next (s : Session) (step : Step) : Notes s.last (s.next g step) := by
  cases hformats : step.formats with
  | false =>
    refine ⟨fun f hf => ?_, fun _ => last_of_not_formats hformats⟩
    rw [formats_of_formatted hf] at hformats
    cases hformats
  | true =>
    cases step with
    | format text options parse? =>
      rw [next]
      split
      · exact notes_error s _
      · exact notes_noting s _
      · exact notes_error s _
      · next o p _ _ => exact notes_noting { s with parsed? := some (p.format o).1 } (p.format o).2
    | formatLast options parse? => exact notes_noting s _
    | _ => cases hformats

/-- that a tree was needed, and no other text was read from then on -/
def TreeMade (g : Source.Grammar) (before : List Step) : Prop :=
  ∃ past step since, before = past ++ step :: since ∧ (after g {} past).AsksTree g step ∧
    ∀ x ∈ since, x.replaces = false

theorem treeMade_concat (before : List Step) (step : Step) :
    TreeMade g (before ++ [step]) ↔
      (after g {} before).AsksTree g step ∨ step.replaces = false ∧ TreeMade g before := by
  constructor
  · rintro ⟨past, x, since, heq, hasks, hsince⟩
    cases since using List.reverseRecOn with
    | nil =>
      obtain ⟨rfl, hx⟩ := List.append_inj' heq rfl
      obtain rfl := List.cons.inj hx |>.1
      exact .inl hasks
    | append_singleton since y =>
      have heq : before ++ [step] = (past ++ x :: since) ++ [y] := by simpa using heq
      obtain ⟨rfl, hy⟩ := List.append_inj' heq rfl
      obtain rfl := List.cons.inj hy |>.1
      exact .inr ⟨hsince _ (by simp), past, x, since, rfl, hasks,
        fun z hz => hsince z (List.mem_append_left _ hz)⟩
  · rintro (hasks | ⟨hstep, past, x, since, rfl, hasks, hsince⟩)
    · exact ⟨before, step, [], rfl, hasks, fun _ hx => nomatch hx⟩
    · refine ⟨past, x, since ++ [step], by simp, hasks, fun z hz => ?_⟩
      rcases List.mem_append.mp hz with hz | hz
      · exact hsince z hz
      · rwa [List.mem_singleton.mp hz]

/-- along a session a tree is kept just from when it is needed till another text is read -/
theorem keepsTree_after (before : List Step) :
    (after g {} before).keepsTree = true ↔ TreeMade g before := by
  induction before using List.reverseRecOn with
  | nil =>
    refine ⟨fun h => (nomatch h), ?_⟩
    rintro ⟨past, step, since, heq, -⟩
    simp at heq
  | append_singleton before step ih =>
    have hcoherent : (after g {} before).Coherent := coherent_after coherent_start before
    rw [after_concat, treeMade_concat, keepsTree_next hcoherent, ih]

/-- **Kept trees.**  Take a session of any steps `before`, and one more `step`, in which texts are
read by any grammar.  A tree that is kept
is the one its text and its module give, and only a step that reads another text changes what was
read.  The answer is that of a session that makes every tree anew, but for the bit that says whether
a tree was kept: it is so just from when one is needed till another text is read.  The text that
formatting gave last changes when formatting gives one, and to that. -/
theorem answers_of_kept_trees (g : Source.Grammar) (before : List Step) (step : Step) :
    let s := after g {} before
    let answer := (s.next g step).2
    run g {} (before ++ [step]) = run g {} before ++ [answer] ∧
    (∀ p ∈ s.parsed?, ∀ n ∈ p.kept?, ∃ m, p.module? = some m ∧ n = m.lower p.text) ∧
    (step.replaces = false →
      (s.next g step).1.parsed?.map Parsed.reading = s.parsed?.map Parsed.reading) ∧
    answer.map Answer.unmarked = ((Forgetful.after g {} before).next g step).2 ∧
    (∀ cached n, answer = .ok (.root cached n) → (cached = true ↔ TreeMade g before)) ∧
    (∀ f, answer = .ok (.formatted f) → step.formats = true ∧ (s.next g step).1.last = f.text) ∧
    ((∀ f, answer ≠ .ok (.formatted f)) → (s.next g step).1.last = s.last) := by
  intro s answer
  have hs : s.Coherent := coherent_after coherent_start before
  have hforget : s.forget = Forgetful.after g {} before := forget_after coherent_start before
  have hnext : forgotten (s.next g step) = s.forget.next g step := forgotten_next hs step
  have hparsed : (s.next g step).1.parsed?.map Parsed.reading = (s.forget.next g step).1.reading? :=
    congrArg (Forgetful.reading? ∘ Prod.fst) hnext
  refine ⟨run_append .., fun p hp n hn => ?_, fun hstep => ?_, ?_, fun cached n h => ?_,
    fun f hf => ⟨formats_of_formatted hf, (notes_next s step).formatted f hf⟩,
    (notes_next s step).other⟩
  · obtain ⟨m, hm, hlower⟩ := Option.map_eq_some_iff.mp (hs p hp n hn)
    exact ⟨m, hm, hlower.symm⟩
  · rw [hparsed, Forgetful.reading_next hstep]
    rfl
  · rw [← hforget, ← hnext]
    rfl
  · rw [cached_eq h]
    exact keepsTree_after before

/-- The tree of a text is asked for twice: it is kept for the second time, and the same. -/
theorem answers_of_kept_trees_twice :
    let p : Parsed := ⟨sampleText, some sampleModule, [], none⟩
    let g := Source.grammar
    let before := [.load p, .root]
    ((after g {} before).next g .root).2 = .ok (.root true (sampleModule.lower sampleText)) ∧
      TreeMade g before ∧ Step.root.replaces = false ∧
      ((after g {} before).next g .root).1.parsed?.map Parsed.reading = some p.reading := by
  intro p g before
  have h := answers_of_kept_trees g before .root
  have hanswer : ((after g {} before).next g .root).2 =
    .ok (.root true (sampleModule.lower sampleText)) := rfl
  exact ⟨hanswer, (h.2.2.2.2.1 true _ hanswer).mp rfl, rfl, h.2.2.1 rfl⟩

end Session

end Reflow
