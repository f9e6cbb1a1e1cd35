import Reflow.Source.Grammar
import Reflow.Source.Scan
import Reflow.Source.Statement

/-!
# Reading source text

`read` gives the statements of a source text, or the fault that is reported for it.  If a token
cannot stand at its place, the text after it is still scanned, and a fault that is found there is
reported instead.

Some rules that do not show in the shape of a text are left out: that arguments by position come
before those by name, which escapes there are, and which characters names may have.  Such texts are
read as if they kept them.

* `ReadError.outranks`   which faults further on come first;
* `Stuck.error`          the fault for a place where reading gets stuck;
* `read`                 the statements of a text;
* `grammar`              all this as a grammar.
-/

namespace Reflow.Source

/-- whether a fault in the text after a token is reported rather than that token: an open bracket
is if it stands on an earlier line, and indentation is not -/
def ReadError.outranks (e : ReadError) (t : Token) : Bool :=
  match e.fault with
  | .neverClosed _ => e.line < t.line
  | .inconsistentUnindent => false
  | _ => true

/-- the fault for a place where reading gets stuck, if scanning ends with `fault?` -/
def Stuck.error (s : Stuck) (fault? : Option ReadError) : ReadError :=
  match s.rest with
  | [] => fault?.getD ⟨.invalid, 1, 0⟩
  | t :: _ =>
    let reported (own : ReadError) : ReadError :=
      match fault? with
      | some e => if e.outranks t then e else own
      | none => own
    match s.block?, t.lexeme with
    | some (statement, line), _ => reported ⟨.missingBlock statement line, t.line, t.offset⟩
    | none, .indent => ⟨.unexpectedIndent, t.line, t.offset⟩
    | none, .dedent => ⟨.unexpectedUnindent, t.line, t.offset⟩
    | none, .finish => reported ⟨.invalid, t.line, 0⟩
    | none, _ => reported ⟨.invalid, t.line, t.offset⟩

/-- the statements of a text -/
def read (text : List Char) : Except ReadError Module :=
  if text.contains '\x00' then .error ⟨.nullCharacter, 1, 1⟩
  else
    let scanned := scan text
    match statements scanned.tokens with
    | .ok (body, _) => .ok { body }
    | .error s => .error (s.error scanned.fault?)

def ReadError.refusal (e : ReadError) : Refusal :=
  match e.fault with
  | .nullCharacter => .nullCharacter e.fault.message
  | f => .ungrammatical f.message (some e.line) (some e.offset)

/-- reading as a grammar, in which all versions are alike -/
def grammar : Grammar := fun text _ => (read text.toList).mapError ReadError.refusal

end Reflow.Source
