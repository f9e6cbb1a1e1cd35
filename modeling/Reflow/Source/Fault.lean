import Reflow.Source.Token

/-!
# Faults in source text

Why a text cannot be read, and where.  Lines and offsets are counted from one, offsets in
characters.
-/

namespace Reflow.Source

/-- why a text cannot be read -/
inductive Fault where
  | nullCharacter
  /-- a bracket without its partner at the end of the text -/
  | neverClosed (b : Bracket)
  /-- a closing bracket that nothing opened -/
  | unmatched (b : Bracket)
  /-- a closing bracket of another kind than the one that is open, with the line of that one if it
  is an earlier line -/
  | mismatched (closing opening : Bracket) (line? : Option Nat)
  /-- a text constant that does not end before the end of the line -/
  | unterminated (line : Nat)
  /-- a text constant over several lines that does not end before the last line -/
  | unterminatedTriple (line : Nat)
  | unexpectedIndent
  | unexpectedUnindent
  /-- no indented block after the statement that starts at the line -/
  | missingBlock (statement : String) (line : Nat)
  /-- a line between two levels of indentation -/
  | inconsistentUnindent
  /-- a token that cannot stand at its place -/
  | invalid
  deriving DecidableEq, Inhabited, Repr

namespace Fault

def message : Fault → String
  | .nullCharacter => "source code string cannot contain null bytes"
  | .neverClosed b => "'" ++ b.opening.toString ++ "' was never closed"
  | .unmatched b => "unmatched '" ++ b.closing.toString ++ "'"
  | .mismatched closing opening line? =>
    "closing parenthesis '" ++ closing.closing.toString ++
      "' does not match opening parenthesis '" ++ opening.opening.toString ++ "'" ++
      line?.elim "" (fun line => " on line " ++ toString line)
  | .unterminated line =>
    "unterminated string literal (detected at line " ++ toString line ++ ")"
  | .unterminatedTriple line =>
    "unterminated triple-quoted string literal (detected at line " ++ toString line ++ ")"
  | .unexpectedIndent => "unexpected indent"
  | .unexpectedUnindent => "unexpected unindent"
  | .missingBlock statement line =>
    "expected an indented block after " ++ statement ++ " on line " ++ toString line
  | .inconsistentUnindent => "unindent does not match any outer indentation level"
  | .invalid => "invalid syntax"

/-- whether the fault is one of indentation -/
def isIndentation : Fault → Bool
  | .unexpectedIndent | .unexpectedUnindent | .missingBlock .. | .inconsistentUnindent => true
  | _ => false

end Fault

/-- a fault at a place -/
structure ReadError where
  fault : Fault
  line : Nat
  offset : Nat
  deriving DecidableEq, Inhabited, Repr

end Reflow.Source
