import Terraload.Command
import Terraload.Summary
import Terraload.Validation.Report
/-!
A run of the program: from arguments and surroundings to an exit code and two texts.
-/
namespace Terraload

structure Surroundings where
  files : FileSystem
  environment : Members Text
  time : Text
  session : Text

inductive Crash
  | undecodable (problem : Encoding.Problem)
  | invalid (problems : List Problem)
  | failed (failure : Failure)

structure Ending where
  code : Nat
  output : Text
  errors : Text
  crash : Option Crash

def unlines (lines : List Text) : Text := lines.flatMap fun l => l ++ [.char '\n']

def printedLines (lines : List Text) : Text := unlines (lines.map Text.unstyled)

namespace LoadOptions

def templateCalls (o : LoadOptions) : List Call :=
  .directory o.directory :: o.modules.map fun m => .moduleFiles m.1 m.2

def overlayCalls (o : LoadOptions) : List Call :=
  (if o.loadState then [Call.state] else []) ++ [.tfvars o.varFiles]

def journal (o : LoadOptions) (settings : Settings) (s : Surroundings) : Journal where
  format := if o.jsonLogs then .json else .console
  threshold := Journal.thresholdFor (o.debug || settings.debug)
  session := [(Journal.sessionKey, .text s.session)]
  time := s.time
  depth := Journal.standardDepth

def component : Members Value := [(text "component", .text (text "loader"))]

def failedEntry (f : Failure) : LogEntry :=
  .of .warning "load_failed" [("command", .text CommandScope.loadName), ("error", .text f.message)]

/-- The entries of a session hold texts and small numbers, which are all written. -/
def written (j : Journal) (log : List LogEntry) : Text :=
  (j.write (log.map fun e => (j.time, e.bind component))).output

def tooManyDigits : Failure :=
  .other [.text (text "Exceeds the limit (4300 digits) for integer string conversion; "
    ++ text "use sys.set_int_max_str_digits() to increase the limit")]

def printed (o : LoadOptions) (s : Session) : Except Failure Text :=
  let summary := Summary.ofSession s
  if o.json then
    match summary.json? with
    | some t => .ok (unlines [t])
    | none => .error tooManyDigits
  else .ok (unlines summary.lines)

def reports : Failure → Bool
  | .load _ => true
  | .system _ => true
  | _ => false

/-- Loads what the options ask for. A failure of a template or module is reported; any other ends
the run as it stands. -/
def runWith (o : LoadOptions) (settings : Settings) (s : Surroundings) : Ending :=
  let config := Config.standard settings
  let j := o.journal settings s
  match Call.runAll config s.files o.templateCalls Session.empty with
  | ⟨_, log, some f⟩ =>
    if reports f then
      ⟨1, [], written j (log ++ [failedEntry f]) ++ printedLines [f.render true], none⟩
    else ⟨1, [], written j log, some (.failed f)⟩
  | ⟨session, log, none⟩ =>
    match Call.runAll config s.files o.overlayCalls session with
    | ⟨_, more, some f⟩ => ⟨1, [], written j (log ++ more), some (.failed f)⟩
    | ⟨session, more, none⟩ =>
      match o.printed session with
      | .ok output => ⟨0, output, written j (log ++ more), none⟩
      | .error f => ⟨1, [], written j (log ++ more), some (.failed f)⟩

def run (o : LoadOptions) (s : Surroundings) : Ending :=
  match Settings.load s.files s.environment [] with
  | .error p => ⟨1, [], [], some (.undecodable p)⟩
  | .ok (.failed ps) => ⟨1, [], [], some (.invalid ps)⟩
  | .ok (.passed settings) => o.runWith settings s

end LoadOptions

namespace Command

def versionLine : Text := text CommandScope.programName ++ text ", version 0.1.0"

def optionLines : CommandScope → List Text
  | .program => programRules.options.map fun o => text "  " ++ o.1
  | .load => loadRules.options.map fun o =>
    text "  " ++ o.1 ++ (if o.2 = .valued then text " TEXT" else [])

def run (s : Surroundings) (arguments : List Text) : Ending :=
  match read arguments with
  | .error r => ⟨2, [], printedLines r.lines, none⟩
  | .ok .version => ⟨0, unlines [versionLine], [], none⟩
  | .ok (.help scope) =>
    ⟨0, unlines ([scope.usage, [], text "Options:"] ++ optionLines scope), [], none⟩
  | .ok (.load o) => o.run s

end Command

def Crash.message : Crash → Text
  | .undecodable p => Text.ofChars p.message
  | .invalid ps => Problem.report "LoaderSettings" (.value (.object [])) ps
  | .failed f => f.message

end Terraload
