import Reflow.Source.Tree

/-!
# Grammars

A grammar gives the statements of a text, or says why there are none.  What is done with a text
depends on the grammar only by that, so that everything from here on is given one.

* `ParseOptions`     what a grammar is told about a text;
* `ParseRequest`     options for reading as they are asked for;
* `Source.Refusal`   why a text cannot be read;
* `Source.Grammar`   how texts are read.
-/

namespace Reflow

theorem major_of_none : ∀ v ∈ (none : Option (Int × Int)), v.1 = 3 := by
  intro v hv
  cases hv

/-- what a grammar is told about a text: which version of it is meant, major and minor, and the name
of the text -/
structure ParseOptions where
  version? : Option (Int × Int) := none
  fileName : String := "<unknown>"
  version_major : ∀ v ∈ version?, v.1 = 3 := by exact major_of_none

instance : Inhabited ParseOptions := ⟨{}⟩

/-- options for reading as they are asked for -/
structure ParseRequest where
  version? : Option (Int × Int) := none
  fileName? : Option String := none
  deriving DecidableEq, Inhabited, Repr

/-- the options for reading, unless they ask for another major version -/
def ParseRequest.resolve? (r : ParseRequest) : Option ParseOptions :=
  let usual : ParseOptions := {}
  if h : ∀ v ∈ r.version?, v.1 = 3 then
    some { version? := r.version?, fileName := r.fileName?.getD usual.fileName, version_major := h }
  else none

/-- the message for another major version -/
def ParseRequest.refusal : String := "feature_version must target Python 3"

namespace Source

/-- why a text cannot be read -/
inductive Refusal where
  /-- it holds a null character -/
  | nullCharacter (message : String)
  /-- it breaks the grammar, at a place that need not be known -/
  | ungrammatical (message : String) (line? offset? : Option Int)
  deriving DecidableEq, Inhabited, Repr

/-- how texts are read -/
abbrev Grammar := String → ParseOptions → Except Refusal Module

end Source

end Reflow
