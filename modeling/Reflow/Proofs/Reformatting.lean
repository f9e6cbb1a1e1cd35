import Reflow.Format
import Reflow.Proofs.Erasure
import Reflow.Proofs.ReadTexts

/-!
# Formatting again

A text that was formatted stays as it is if it is formatted again, provided that it still reads as
the text it was made from.  The rules do not always see to that: a tuple as an argument loses its
parentheses, so that its comma becomes the comma of the arguments.

* `Module.print_congr`           statements that differ in positions only give one document;
* `Parsed.formatted_read`        what formatting gives for a text that can be read;
* `Parsed.formatted_again`       a text that reads as before is not changed any more;
* `Parsed.formatted_twice_tuple` a text that formatting changes twice.
-/

namespace Reflow

theorem Source.Module.print_congr {m₁ m₂ : Module} {text₁ text₂ : String} (h₁ : m₁.Regular text₁)
    (h₂ : m₂.Regular text₂) (h : m₁.erase = m₂.erase) :
    (m₁.lower text₁).print = (m₂.lower text₂).print := by
  calc (m₁.lower text₁).print
      = m₁.erase.printed := by rw [Module.print_lower h₁, m₁.printed_erase]
    _ = m₂.erase.printed := by rw [h]
    _ = (m₂.lower text₂).print := by rw [Module.print_lower h₂, m₂.printed_erase]

theorem ok_of_toOption {ε α : Type} {x : Except ε α} {a : α} (h : x.toOption = some a) :
    x = .ok a := by
  cases x with
  | ok b =>
    cases h
    rfl
  | error e => cases h

namespace Parsed
variable {g : Source.Grammar} {text : String} {po : ParseOptions} {m : Source.Module}
  {f : Formatted} {o : Options}

theorem formatted_read (h : g text po = .ok m) :
    (ofText g text po).formatted o = .ok f ↔ ∃ d, (m.lower text).print = .ok d ∧
      f = { text := d.render o, changed := d.render o != text, diagnostics := [] } := by
  have hread : ofText g text po = { text, module? := some m } := by
    rw [ofText, h]
  have hformat : (ofText g text po).formatted o = (do
      let d ← (m.lower text).print.mapError .print
      return ⟨d.render o, d.render o != text, []⟩) := by
    rw [hread]
    rfl
  rw [hformat]
  cases (m.lower text).print with
  | ok d =>
    constructor
    · intro hf
      exact ⟨d, rfl, (Except.ok.inj hf).symm⟩
    · rintro ⟨e, he, rfl⟩
      cases he
      rfl
  | error e =>
    constructor
    · intro hf
      cases hf
    · rintro ⟨d, hd, -⟩
      cases hd

/-- A text was formatted.  If what came of it reads as the same statements, but for their positions,
then formatting this gives the same text once more, and no diagnostics.  That is so for every
grammar that keeps parameters and defaults in order. -/
theorem formatted_again {m' : Source.Module} (hg : g.Regular) (hread : g text po = .ok m)
    (hf : (ofText g text po).formatted o = .ok f) (hread' : g f.text po = .ok m')
    (h : m'.erase = m.erase) :
    (ofText g f.text po).formatted o =
      .ok { text := f.text, changed := false, diagnostics := [] } := by
  obtain ⟨d, hd, rfl⟩ := (formatted_read hread).mp hf
  have hprint : (m'.lower (d.render o)).print = .ok d :=
    (Source.Module.print_congr (hg hread') (hg hread) h).trans hd
  have hsame : (d.render o != d.render o) = false := bne_self_eq_false _
  refine (formatted_read hread').mpr ⟨d, hprint, ?_⟩
  rw [hsame]

/-- a function with defaults, and in its body a call with a list of pairs and another call as its
arguments; the body stands at the given column -/
def nested (margin : Int) : Source.Module where
  body := [.function ⟨some 1, 0⟩ "f" false false false
    (.mk [] [{ pos := ⟨some 1, 6⟩, name := "a" }, { pos := ⟨some 1, 9⟩, name := "b" }] none
      [{ pos := ⟨some 1, 18⟩, name := "c" }] [some (.constant ⟨some 1, 20⟩ .nothing)] none
      [.list ⟨some 1, 11⟩ []])
    [.expression ⟨some 2, margin⟩ (.call ⟨some 2, margin⟩ (.ident ⟨some 2, margin⟩ "g")
      [.list ⟨some 2, margin + 2⟩
        [.tuple ⟨some 2, margin + 3⟩
          [.ident ⟨some 2, margin + 4⟩ "a", .ident ⟨some 2, margin + 7⟩ "b"],
         .tuple ⟨some 2, margin + 11⟩
          [.ident ⟨some 2, margin + 12⟩ "b", .ident ⟨some 2, margin + 15⟩ "c"]]]
      [.mk ⟨some 2, margin + 20⟩ (some "key")
        (.call ⟨some 2, margin + 24⟩ (.ident ⟨some 2, margin + 24⟩ "h") [] [])])]]

def spacedText : String := "def f(a, b=[], *, c=None ) :\n  g([(a, b), (b, c)], key=h( ) )\n"

def nestedText : String := "def f(a, b=[], *, c=None):\n    g([(a, b), (b, c)], key=h())\n"

set_option maxRecDepth 10000 in
theorem formatted_again_nested :
    (ofText Source.grammar spacedText).formatted {} = .ok ⟨nestedText, true, []⟩ ∧
    (ofText Source.grammar nestedText).formatted {} = .ok ⟨nestedText, false, []⟩ := by
  have hread : Source.grammar spacedText {} = .ok (nested 2) := by cbv
  have hread' : Source.grammar nestedText {} = .ok (nested 4) := by cbv
  have hsome : ((ofText Source.grammar spacedText).formatted {}).toOption =
    some ⟨nestedText, true, []⟩ := by decide +kernel
  have hf := ok_of_toOption hsome
  have hagain := formatted_again Source.grammar_regular hread hf hread' rfl
  exact ⟨hf, hagain⟩

/-- a tuple of one element as an argument becomes this element -/
theorem formatted_twice_tuple :
    ((ofText Source.grammar "f((1,))\n").formatted {}).toOption = some ⟨"f(1,)\n", true, []⟩ ∧
    ((ofText Source.grammar "f(1,)\n").formatted {}).toOption = some ⟨"f(1)\n", true, []⟩ := by
  decide +kernel

end Parsed

end Reflow
