import Reflow.Number.Basic
import Reflow.Text.Blank
import Reflow.Text.Quoted

/-!
# Command line arguments

A command takes options and one positional argument, in any order.  A long option may be shortened
as long as no other one starts like it, and takes its value from the same argument after `=`, or
from the next one.  After `--` there are no options any more.

* `OptionSpec`, `Interface`   the options of a command, and its texts;
* `Interface.classify`        what each argument is, before any is used;
* `Interface.walk`            the arguments from left to right;
* `Interface.parse`           what the arguments ask for.

Errors come in this order: an option that is shortened too much, then from left to right a value
that is missing, does not fit or is not expected, then a missing argument, then those that nothing
takes.
-/

namespace Reflow

/-- what an option does with its value -/
inductive OptionKind where
  /-- asks for the help text, and takes no value -/
  | help
  /-- takes no value -/
  | flag
  | integer
  | text
  deriving DecidableEq, Repr

/-- an option with all its names -/
structure OptionSpec where
  names : List String
  kind : OptionKind
  deriving DecidableEq, Repr

/-- the value that an option is given -/
inductive OptionValue where
  | flag
  | integer (n : Int)
  | text (s : String)
  deriving DecidableEq, Repr

/-- what a command takes, and the texts that say so -/
structure Interface where
  program : String
  usage : String
  help : String
  /-- the name of the positional argument -/
  positional : String
  options : List OptionSpec

/-- what arguments ask for -/
inductive Request where
  /-- the help text -/
  | help
  /-- the command with the positional argument, and the values of the options in order -/
  | run (positional : String) (values : List (OptionSpec × OptionValue))
  | refused (message : String)
  deriving DecidableEq, Repr

/-- what an argument is -/
inductive ArgumentClass where
  | plain
  /-- the mark after which all arguments are plain -/
  | dashes
  /-- an option by one of its names, perhaps with a value -/
  | option (spec : OptionSpec) (name : String) (value? : Option String)
  /-- looks like an option and is none -/
  | unknown
  deriving DecidableEq, Repr

namespace OptionSpec

def shown (o : OptionSpec) : String := "/".intercalate o.names

/-- the message for a fault in an option -/
def refusal (o : OptionSpec) (message : String) : String :=
  "argument " ++ o.shown ++ ": " ++ message

end OptionSpec

/-- the digits of a text in which single underscores may stand between digits -/
def underscoredDigits? : List Char → Option (List Char)
  | [] => none
  | [c] => if c.isDigit then some [c] else none
  | c :: '_' :: cs => if c.isDigit then (underscoredDigits? cs).map (c :: ·) else none
  | c :: cs => if c.isDigit then (underscoredDigits? cs).map (c :: ·) else none

/-- the integer that a text stands for: blanks around it do not count, and there may be a sign -/
def integerOfText? (s : String) : Option Int :=
  let (negative, cs) := match Text.trim s.toList with
    | '-' :: cs => (true, cs)
    | '+' :: cs => (false, cs)
    | cs => (false, cs)
  match underscoredDigits? cs with
  | none => none
  | some ds =>
    if Number.maxIntegerDigits < ds.length then none
    else some ((if negative then -1 else 1) * (ofDecimalDigits ds : Int))

/-- whether a text is a negative number in decimal, perhaps with a point -/
def isNegativeNumber (s : String) : Bool :=
  match s.toList with
  | '-' :: cs =>
    let whole := cs.takeWhile Char.isDigit
    match cs.dropWhile Char.isDigit with
    | [] => !whole.isEmpty
    | '.' :: places => !places.isEmpty && places.all Char.isDigit
    | _ => false
  | _ => false

namespace Interface

variable (iface : Interface)

/-- all names of options, each with its option -/
def names : List (String × OptionSpec) :=
  iface.options.flatMap fun o => o.names.map (·, o)

/-- a text up to its first `=`, and the rest, if there is one -/
def splitEquals (cs : List Char) : String × Option String :=
  (String.ofList (cs.takeWhile (· != '=')),
    match cs.dropWhile (· != '=') with
    | [] => none
    | _ :: rest => some (String.ofList rest))

/-- the options that an argument can stand for if it is none by its full name -/
def candidates (arg : String) : List (String × OptionSpec × Option String) :=
  match arg.toList with
  | '-' :: '-' :: _ =>
    let (start, value?) := splitEquals arg.toList
    iface.names.filterMap fun (name, o) =>
      if start.toList.isPrefixOf name.toList then some (name, o, value?) else none
  | '-' :: c :: rest =>
    iface.names.filterMap fun (name, o) =>
      if name.toList = ['-', c] then some (name, o, some (String.ofList rest))
      else if arg.toList.isPrefixOf name.toList then some (name, o, none)
      else none
  | _ => []

/-- what an argument before any `--` is, or the message for one that is shortened too much -/
def classOf (arg : String) : Except String ArgumentClass :=
  if !(arg.toList.head? == some '-') || arg == "-" then .ok .plain
  else match iface.names.lookup arg with
    | some o => .ok (.option o arg none)
    | none =>
      let (name, value?) := splitEquals arg.toList
      match value?, iface.names.lookup name with
      | some value, some o => .ok (.option o name (some value))
      | _, _ =>
        match iface.candidates arg with
        | [(name, o, value?)] => .ok (.option o name value?)
        | [] =>
          .ok (if isNegativeNumber arg || arg.toList.contains ' ' then .plain else .unknown)
        | several =>
          .error ("ambiguous option: " ++ arg ++ " could match " ++
            ", ".intercalate (several.map (·.1)))

/-- the arguments with what they are -/
def classify : List String → Except String (List (String × ArgumentClass))
  | [] => .ok []
  | arg :: args =>
    if arg = "--" then .ok ((arg, .dashes) :: args.map (·, .plain))
    else do
      let c ← iface.classOf arg
      return (arg, c) :: (← classify args)

/-- what is known after some of the arguments -/
structure State where
  positional? : Option String := none
  values : List (OptionSpec × OptionValue) := []
  /-- the arguments that nothing takes -/
  extras : List String := []

/-- the value of an option that takes one -/
def convert (o : OptionSpec) (value : String) : Except String OptionValue :=
  match o.kind with
  | .integer =>
    match integerOfText? value with
    | some n => .ok (.integer n)
    | none => .error (o.refusal ("invalid int value: " ++ Text.quoted value))
  | _ => .ok (.text value)

/-- the value after an option that takes none: after a short name the same name may come again, as
often as one likes -/
def superfluous? (name value : String) : Option String :=
  match name.toList with
  | ['-', c] =>
    if value.isEmpty then some value
    else
      let rest := value.toList.dropWhile (· == c)
      if rest.isEmpty then none else some (String.ofList rest)
  | _ => some value

/-- what is asked for when there are no arguments left -/
def finish (s : State) : Request :=
  match s.positional? with
  | none => .refused ("the following arguments are required: " ++ iface.positional)
  | some p =>
    if s.extras.isEmpty then .run p s.values
    else .refused ("unrecognized arguments: " ++ " ".intercalate s.extras)

/-- the arguments from left to right -/
def walk (s : State) : List (String × ArgumentClass) → Request
  | [] => iface.finish s
  | (arg, .unknown) :: rest => walk { s with extras := s.extras ++ [arg] } rest
  | (arg, .plain) :: rest =>
    if s.positional?.isNone then
      match rest with
      | (_, .dashes) :: rest => walk { s with positional? := some arg } rest
      | rest => walk { s with positional? := some arg } rest
    else walk { s with extras := s.extras ++ [arg] } rest
  | (arg, .dashes) :: rest =>
    match s.positional?, rest with
    | none, (p, _) :: rest => walk { s with positional? := some p } rest
    | _, rest => walk { s with extras := s.extras ++ [arg] } rest
  | (_, .option o name value?) :: rest =>
    match o.kind, value? with
    | .help, value? =>
      match value?.bind (superfluous? name) with
      | none => .help
      | some value => .refused (o.refusal ("ignored explicit argument " ++ Text.quoted value))
    | .flag, none => walk { s with values := s.values ++ [(o, .flag)] } rest
    | .flag, some value => .refused (o.refusal ("ignored explicit argument " ++ Text.quoted value))
    | _, some value =>
      match convert o value with
      | .ok v => walk { s with values := s.values ++ [(o, v)] } rest
      | .error message => .refused message
    | _, none =>
      match rest with
      | (value, .plain) :: rest =>
        match convert o value with
        | .ok v => walk { s with values := s.values ++ [(o, v)] } rest
        | .error message => .refused message
      | _ => .refused (o.refusal "expected one argument")

/-- what arguments ask for -/
def parse (args : List String) : Request :=
  match iface.classify args with
  | .ok args => iface.walk {} args
  | .error message => .refused message

/-- what is printed for a request that is refused -/
def refusalText (message : String) : String :=
  iface.usage ++ iface.program ++ ": error: " ++ message ++ "\n"

end Interface

namespace Request

/-- the last value that an option was given -/
def last? (values : List (OptionSpec × OptionValue)) (name : String) : Option OptionValue :=
  (values.reverse.find? fun (o, _) => o.names.contains name).map (·.2)

/-- the last integer that an option was given, or the usual one -/
def integer (values : List (OptionSpec × OptionValue)) (name : String) (usual : Int) : Int :=
  match last? values name with
  | some (.integer n) => n
  | _ => usual

/-- the last text that an option was given -/
def text? (values : List (OptionSpec × OptionValue)) (name : String) : Option String :=
  match last? values name with
  | some (.text s) => some s
  | _ => none

end Request

end Reflow
