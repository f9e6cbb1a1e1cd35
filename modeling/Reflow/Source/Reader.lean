import Reflow.Source.Token
import Reflow.Source.Tree

/-!
# Reading tokens

A `Reader` takes what it reads from the front of a list of tokens.  Where it gets stuck, it gives
the tokens from the first one that does not fit; if there is none left, what is missing is further
text.

* `Reader.next`, `.accept`, `.expect`   single tokens;
* `Reader.orElse`                       two ways to read, of which the one that gets further counts;
* `Reader.all`, `.follow`, `.items`   repetition, which ends because a list of tokens does.
-/

namespace Reflow.Source

/-- where reading stops: the tokens that are left, and the statement, with its line, if what is
missing there is its block -/
structure Stuck where
  rest : List Token
  block? : Option (String × Nat) := none

/-- of two places the one further on -/
def Stuck.further (a b : Stuck) : Stuck := if b.rest.length < a.rest.length then b else a

/-- reads something from the front of a list of tokens -/
abbrev Reader (α : Type) := StateT (List Token) (Except Stuck) α

namespace Reader

variable {α : Type}

/-- gets stuck at the next token -/
def stuck (block? : Option (String × Nat) := none) : Reader α := fun ts => .error ⟨ts, block?⟩

/-- the next token, which stays where it is -/
def next : Reader Token
  | [] => .error ⟨[], none⟩
  | t :: ts => .ok (t, t :: ts)

/-- takes the next token -/
def skip : Reader Unit
  | [] => .error ⟨[], none⟩
  | _ :: ts => .ok ((), ts)

/-- the place of the next token -/
def place : Reader Position := do
  let t ← next
  return ⟨some t.line, t.bytes⟩

/-- whether the next token is this one -/
def sees (l : Lexeme) : Reader Bool := do return (← next).lexeme = l

/-- takes the next token if it is this one, and says whether it is -/
def accept (l : Lexeme) : Reader Bool := do
  if ← sees l then
    skip
    return true
  else return false

/-- takes the next token, which has to be this one -/
def expect (l : Lexeme) : Reader Unit := do
  if ← sees l then skip else stuck

def acceptMark (m : Mark) : Reader Bool := accept (.mark m)
def expectMark (m : Mark) : Reader Unit := expect (.mark m)
def acceptWord (w : Reserved) : Reader Bool := accept (.reserved w)
def expectWord (w : Reserved) : Reader Unit := expect (.reserved w)

/-- takes the next token, which has to be a name -/
def name : Reader String := do
  match (← next).lexeme with
  | .name s =>
    skip
    return s
  | _ => stuck

/-- reads in one of two ways; if neither succeeds, the one that gets further says where it is stuck
-/
def orElse (p q : Reader α) : Reader α := fun ts =>
  match p ts with
  | .ok r => .ok r
  | .error a =>
    match q ts with
    | .ok r => .ok r
    | .error b => .error (a.further b)

/-- reads on from a value for as long as there is something to read, at most `fuel` times -/
def followFor (p : α → Reader (Option α)) : Nat → α → Reader α
  | 0, _ => stuck
  | fuel + 1, a => do
    match ← p a with
    | some a => followFor p fuel a
    | none => return a

/-- reads on from a value for as long as there is something to read -/
def follow (p : α → Reader (Option α)) (a : α) : Reader α := fun ts =>
  followFor p (ts.length + 1) a ts

/-- reads values for as long as there are some, at most `fuel` times -/
def allFor (p : Reader (Option α)) : Nat → Reader (List α)
  | 0 => stuck
  | fuel + 1 => do
    match ← p with
    | some a => return a :: (← allFor p fuel)
    | none => return []

/-- reads values for as long as there are some -/
def all (p : Reader (Option α)) : Reader (List α) := fun ts => allFor p (ts.length + 1) ts

/-- reads again for as long as `more` says so of the next token -/
def allWhile (more : Lexeme → Bool) (p : Reader α) : Reader (List α) :=
  all do
    if more (← next).lexeme then return some (← p) else return none

/-- the values that follow another one, each after a comma, at most `fuel` of them; the last comma
need not have one after it -/
def itemsFor (starts : Lexeme → Bool) (p : Reader α) : Nat → Reader (List α)
  | 0 => stuck
  | fuel + 1 => do
    if ← acceptMark .comma then
      if starts (← next).lexeme then return (← p) :: (← itemsFor starts p fuel) else return []
    else return []

/-- the values that follow another one, each after a comma.  There may be a comma after the last
one, where the next token does not start a further one. -/
def items (starts : Lexeme → Bool) (p : Reader α) : Reader (List α) := fun ts =>
  itemsFor starts p (ts.length + 1) ts

/-- one value or several with commas between them, and whether there is a comma -/
def separated (starts : Lexeme → Bool) (p : Reader α) : Reader (List α × Bool) := do
  let first ← p
  let comma ← sees (.mark .comma)
  return (first :: (← items starts p), comma)

end Reader

end Reflow.Source
