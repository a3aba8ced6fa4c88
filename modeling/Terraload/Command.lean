import Terraload.Command.Arguments
/-!
What the program can be asked to do, and how it is asked.
-/
namespace Terraload

structure LoadOptions where
  directory : Text
  modules : List (Text × Text)
  varFiles : List Text
  loadState : Bool
  json : Bool
  jsonLogs : Bool
  debug : Bool

inductive CommandScope
  | program
  | load
  deriving DecidableEq

inductive Command
  | version
  | help (scope : CommandScope)
  | load (options : LoadOptions)

structure Refusal where
  scope : CommandScope
  error : UsageError
  deriving DecidableEq

namespace CommandScope

def programName : String := "tflint-loader"

def loadName : Text := text "load"

def call : CommandScope → Text
  | .program => text programName
  | .load => text programName ++ text " " ++ loadName

def usage (s : CommandScope) : Text :=
  text "Usage: " ++ s.call ++
    match s with
    | .program => text " [OPTIONS] COMMAND [ARGS]..."
    | .load => text " [OPTIONS]"

def helpLine (s : CommandScope) : Text :=
  text "Try \x27" ++ s.call ++ text " --help\x27 for help."

end CommandScope

def Refusal.lines (r : Refusal) : List Text :=
  let message := text "Error: " ++ r.error.message
  if r.error.showsUsage then [r.scope.usage, r.scope.helpLine, [], message] else [message]

namespace LoadOptions

def module? (value : Text) : Option (Text × Text) :=
  match value.cut (.char '=') with
  | (key, some source) => if key.isEmpty || source.isEmpty then none else some (key, source)
  | (_, none) => none

def modulesOf : List Text → Except UsageError (List (Text × Text))
  | [] => .ok []
  | v :: vs =>
    match module? v with
    | some m => (modulesOf vs).map (m :: ·)
    | none => .error (.malformedModule v)

def valuesOf (name : String) (a : Arguments) : List Text :=
  (a.options.filter fun o => o.1 == text name).map (·.2)

def switch (on off : String) (default : Bool) (a : Arguments) : Bool :=
  match (a.options.filter fun o => o.1 == text on || o.1 == text off).getLast? with
  | some o => o.1 == text on
  | none => default

def isGiven (name : String) (a : Arguments) : Bool := !(valuesOf name a).isEmpty

def defaultDirectory : Text := text "."

def ofArguments (a : Arguments) : Except UsageError LoadOptions := do
  let modules ← modulesOf (valuesOf "--module" a)
  if !a.others.isEmpty then .error (.extraArguments a.others)
  else
    .ok {
      directory := (valuesOf "--dir" a).getLast?.getD defaultDirectory
      modules := modules
      varFiles := valuesOf "--var-file" a
      loadState := switch "--load-state" "--no-load-state" true a
      json := isGiven "--json" a
      jsonLogs := switch "--json-logs" "--no-json-logs" false a
      debug := isGiven "--debug" a }

end LoadOptions

namespace Command

def helpOption : Text := text "--help"
def versionOption : Text := text "--version"

def programRules : OptionRules := ⟨[(versionOption, .flag), (helpOption, .flag)], false⟩

def loadRules : OptionRules where
  options := [
    (text "--dir", .valued), (text "--module", .valued), (text "--var-file", .valued),
    (text "--load-state", .flag), (text "--no-load-state", .flag), (text "--json", .flag),
    (text "--json-logs", .flag), (text "--no-json-logs", .flag), (text "--debug", .flag),
    (helpOption, .flag)]
  mixed := true

def ofProgramOptions? : List (Text × Text) → Option Command
  | [] => none
  | o :: _ => some (if o.1 == versionOption then .version else .help .program)

def readLoad (arguments : List Text) : Except UsageError Command := do
  let a ← Arguments.read loadRules arguments
  if LoadOptions.isGiven "--help" a then .ok (.help .load)
  else (LoadOptions.ofArguments a).map .load

/-- What arguments without a known command ask for. The name of a command that looks like an option
counts as one. -/
def readUnknown (name : Text) (arguments : List Text) : Except UsageError Command := do
  let a ← Arguments.read programRules arguments
  match ofProgramOptions? a.options with
  | some c => .ok c
  | none => .error (.unknownCommand name)

def inScope {α : Type} (scope : CommandScope) : Except UsageError α → Except Refusal α
  | .ok a => .ok a
  | .error e => .error ⟨scope, e⟩

def read (arguments : List Text) : Except Refusal Command := do
  let a ← inScope .program (Arguments.read programRules arguments)
  match ofProgramOptions? a.options, a.others with
  | some c, _ => .ok c
  | none, [] => .error ⟨.program, .missingCommand⟩
  | none, name :: rest =>
    if name == CommandScope.loadName then inScope .load (readLoad rest)
    else inScope .program (readUnknown name a.others)

end Command

end Terraload
