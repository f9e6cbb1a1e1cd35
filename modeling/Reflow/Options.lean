import Reflow.Text.Quoted

/-!
# Layout options

* `EndOfLine`               how an output line ends;
* `Options`                 page width, indentation width and line end, with both widths positive;
* `Profile`                 the named presets;
* `OptionsRequest`          options as they are asked for, which may be refused;
* `OptionsRequest.resolve`  the options, or why they are refused: a name that is not known comes
                            first, then the page width, then the indentation width.
-/

namespace Reflow

/-- how an output line ends -/
inductive EndOfLine where
  | lf
  | crlf
  deriving DecidableEq, Inhabited, Repr

namespace EndOfLine

/-- the characters that end a line -/
def newline : EndOfLine → List Char
  | .lf => ['\n']
  | .crlf => ['\r', '\n']

def name : EndOfLine → String
  | .lf => "lf"
  | .crlf => "crlf"

def ofName? (s : String) : Option EndOfLine := [lf, crlf].find? (·.name == s)

end EndOfLine

/-- the page that a document is laid out on -/
structure Options where
  printWidth : Nat := 80
  tabWidth : Nat := 4
  endOfLine : EndOfLine := .lf
  printWidth_pos : 0 < printWidth := by decide
  tabWidth_pos : 0 < tabWidth := by decide

instance : Inhabited Options := ⟨{}⟩

/-- a named preset -/
inductive Profile where
  | default
  | compact
  deriving DecidableEq, Repr

namespace Profile

def name : Profile → String
  | .default => "default"
  | .compact => "compact"

def ofName? (s : String) : Option Profile := [Profile.default, compact].find? (·.name == s)

/-- the compact preset has a narrower page -/
def options : Profile → Options
  | .default => {}
  | .compact => { printWidth := 60 }

end Profile

/-- why options are refused -/
inductive OptionsError where
  | printWidth
  | tabWidth
  | endOfLine (name : String)
  | profile (name : String)
  deriving DecidableEq, Repr

namespace OptionsError

def message : OptionsError → String
  | .printWidth => "print_width must be positive"
  | .tabWidth => "tab_width must be positive"
  | .endOfLine name => Text.quoted name ++ " is not a valid EndOfLine"
  | .profile name => Text.quoted name ++ " is not a valid FormatProfile"

end OptionsError

/-- options with the given widths, which must both be positive -/
def Options.ofWidths? (printWidth tabWidth : Int) (endOfLine : EndOfLine) :
    Except OptionsError Options :=
  if hp : 0 < printWidth then
    if ht : 0 < tabWidth then
      .ok { printWidth := printWidth.toNat, tabWidth := tabWidth.toNat, endOfLine
            printWidth_pos := by omega, tabWidth_pos := by omega }
    else .error .tabWidth
  else .error .printWidth

/-- options as they are asked for: widths and a line end, or a preset.  What is not asked for is as
in `Options`. -/
inductive OptionsRequest where
  | widths (printWidth? tabWidth? : Option Int) (endOfLine? : Option String)
  | profile (name : String)
  deriving DecidableEq, Repr

/-- nothing is asked for -/
instance : Inhabited OptionsRequest := ⟨.widths none none none⟩

/-- the options that are asked for, or why they are refused -/
def OptionsRequest.resolve : OptionsRequest → Except OptionsError Options
  | .profile name =>
    match Profile.ofName? name with
    | some p => .ok p.options
    | none => .error (.profile name)
  | .widths printWidth? tabWidth? endOfLine? => do
    let usual : Options := {}
    let endOfLine ← match endOfLine? with
      | none => .ok usual.endOfLine
      | some name => match EndOfLine.ofName? name with
        | some e => .ok e
        | none => .error (.endOfLine name)
    Options.ofWidths? (printWidth?.getD usual.printWidth) (tabWidth?.getD usual.tabWidth) endOfLine

end Reflow
