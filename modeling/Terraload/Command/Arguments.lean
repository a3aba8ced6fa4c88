import Terraload.Text.Quoted
/-!
Arguments of a command: options by name, some of which take a value, and the arguments beside them.
A value is the rest of the argument after an equals sign, or else the argument behind it, whatever
that looks like. Two dashes end the options.
-/
namespace Terraload

inductive UsageError
  | unknownOption (name : Text)
  | missingValue (name : Text)
  | unwantedValue (name : Text)
  | malformedModule (value : Text)
  | extraArguments (arguments : List Text)
  | unknownCommand (name : Text)
  | missingCommand
  deriving DecidableEq

namespace UsageError

def message : UsageError → Text
  | .unknownOption n => text "No such option " ++ n.quoted ++ text "."
  | .missingValue n => text "Option " ++ n.quoted ++ text " requires an argument."
  | .unwantedValue n => text "Option " ++ n.quoted ++ text " does not take a value."
  | .malformedModule v =>
    text "Invalid value for \x27--module\x27: expected KEY=SOURCE, got \x27" ++ v ++ text "\x27"
  | .extraArguments [a] => text "Got unexpected extra argument (" ++ a ++ text ")"
  | .extraArguments as =>
    text "Got unexpected extra arguments (" ++ Text.join (text " ") as ++ text ")"
  | .unknownCommand n => text "No such command " ++ n.quoted ++ text "."
  | .missingCommand => text "Missing command."

def showsUsage : UsageError → Bool
  | .missingValue _ => false
  | .unwantedValue _ => false
  | _ => true

end UsageError

inductive OptionKind
  | flag
  | valued
  deriving DecidableEq

structure OptionRules where
  options : List (Text × OptionKind)
  mixed : Bool

structure Arguments where
  options : List (Text × Text)
  others : List Text

namespace Arguments

def dash : CodePoint := .char '-'

def endMark : Text := [dash, dash]

def isOption : Text → Bool
  | a :: _ :: _ => a == dash
  | _ => false

/-- The name by which an option is refused: with one dash that of its first letter alone. -/
def refusedName (argument name : Text) : Text :=
  if endMark.isPrefixOf argument then name else argument.take 2

def option (name value : Text) (a : Arguments) : Arguments :=
  { a with options := (name, value) :: a.options }

def other (argument : Text) (a : Arguments) : Arguments :=
  { a with others := argument :: a.others }

def read (rules : OptionRules) : List Text → Except UsageError Arguments
  | [] => .ok ⟨[], []⟩
  | a :: rest =>
    if a == endMark then .ok ⟨[], rest⟩
    else if isOption a then
      let (name, value) := a.cut (.char '=')
      match rules.options.lookup name with
      | none => .error (.unknownOption (refusedName a name))
      | some .flag =>
        if value.isSome then .error (.unwantedValue name)
        else (read rules rest).map (option name [])
      | some .valued =>
        match value with
        | some v => (read rules rest).map (option name v)
        | none =>
          match rest with
          | [] => .error (.missingValue name)
          | v :: rest => (read rules rest).map (option name v)
    else if rules.mixed then (read rules rest).map (other a)
    else .ok ⟨[], a :: rest⟩

end Arguments

end Terraload
