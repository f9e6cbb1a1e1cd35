import Reflow.Text.Quoted

/-!
# Why a tree cannot be printed
-/

namespace Reflow

/-- why a tree cannot be printed, or a place in it not be reached -/
inductive PrintError where
  /-- a construct without a printing rule -/
  | unsupported (kind : String) (detail : Option String)
  /-- nothing stands in the field -/
  | emptyField (field owner : String)
  /-- nodes of this type have no such field -/
  | noField (owner field : String)
  /-- a sequence has no such place -/
  | outOfRange
  /-- a value of this type has no places -/
  | notSubscriptable (typeName : String)
  /-- a value of this type is no sequence -/
  | notSequence (typeName : String)
  /-- an integer is too long to be written -/
  | integerTooLong
  deriving DecidableEq, Repr

namespace PrintError

/-- the message for an integer that is too long to be written -/
def integerTooLongMessage : String :=
  "Exceeds the limit (4300 digits) for integer string conversion; " ++
    "use sys.set_int_max_str_digits() to increase the limit"

def message : PrintError → String
  | .unsupported kind detail =>
    "Unsupported node kind: " ++ Text.quoted kind ++ detail.elim "" (" (" ++ · ++ ")")
  | .emptyField field owner => "Field " ++ Text.quoted field ++ " of " ++ owner ++ " is empty"
  | .noField owner field => Text.quoted owner ++ " object has no attribute " ++ Text.quoted field
  | .outOfRange => "tuple index out of range"
  | .notSubscriptable typeName => Text.quoted typeName ++ " object is not subscriptable"
  | .notSequence typeName => "object of type " ++ Text.quoted typeName ++ " has no len()"
  | .integerTooLong => integerTooLongMessage

end PrintError

end Reflow
