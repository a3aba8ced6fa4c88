import Terraload.Json.Writer
import Terraload.Value.Literal
/-!
Diagnostic entries and their lines. Each entry is one object: what the session and the logger have
bound, overridden by what the entry itself says.
-/
namespace Terraload

inductive Level
  | debug | info | warning | error | critical
  deriving DecidableEq

def Level.name : Level → String
  | .debug => "debug"
  | .info => "info"
  | .warning => "warning"
  | .error => "error"
  | .critical => "critical"

def Level.severity : Level → Nat
  | .debug => 10
  | .info => 20
  | .warning => 30
  | .error => 40
  | .critical => 50

structure LogEntry where
  level : Level
  event : Text
  context : Members Value
  deriving DecidableEq

namespace LogEntry

def of (level : Level) (event : String) (context : List (String × Value)) : LogEntry :=
  ⟨level, text event, context.map fun (k, v) => (text k, v)⟩

/-- Adds what was bound before; the entry's own members win. -/
def bind (bound : Members Value) (e : LogEntry) : LogEntry :=
  { e with context := bound.putAll e.context }

end LogEntry

inductive JournalFormat
  | json
  | console
  deriving DecidableEq

/-- Where entries go: their format, the least severity that is written, the members that stand below
all others, the text of the time, and how many lists and objects may stand in each other. -/
structure Journal where
  format : JournalFormat
  threshold : Nat
  session : Members Value
  time : Text
  depth : Nat

inductive JournalFailure
  | unknownThreshold (threshold : Nat)
  | unwritable (obstacle : Json.Obstacle)
  deriving DecidableEq

structure Written where
  output : Text
  failure : Option JournalFailure

namespace Journal

/-- The severity from which on entries are written: all of them in a debugging session, else
warnings and worse. -/
def thresholdFor (debug : Bool) : Nat := if debug then Level.debug.severity else Level.warning.severity

def thresholds : List Nat :=
  [0, Level.debug.severity, Level.info.severity, Level.warning.severity, Level.error.severity,
    Level.critical.severity]

def standardDepth : Nat := 990

def levelKey : Text := text "level"
def eventKey : Text := text "event"
def timeKey : Text := text "timestamp"

def sessionKey : Text := text "session_id"

def members (j : Journal) (e : LogEntry) : Members Value :=
  (((j.session.putAll e.context).put levelKey (.text (text e.level.name))).put
    timeKey (.text j.time)).put eventKey (.text e.event)

def needsQuotes (t : Text) : Bool :=
  t.any fun c => (text " \t=\r\n\"\x27").contains c

def shown : Value → Text
  | .text t => if needsQuotes t then t.quoted else t
  | v => v.literal

def levelWidth : Nat := 9
def eventWidth : Nat := 30

def isBlank (c : CodePoint) : Bool := c == .char ' '

def otherMembers (j : Journal) (e : LogEntry) : Members Value :=
  (j.members e).sorted.filter fun m => m.1 != levelKey && m.1 != eventKey && m.1 != timeKey

/-- The line of an entry for reading: the time, the level, the event, and the other members in the
order of their names. -/
def consoleLine (j : Journal) (e : LogEntry) : Text :=
  let head := j.time ++ text " [" ++ (text e.level.name).padRight levelWidth ++ text "] "
    ++ e.event.padRight eventWidth
  let line := head ++ (j.otherMembers e).flatMap fun m => .char ' ' :: (m.1 ++ .char '=' :: shown m.2)
  (line.reverse.dropWhile isBlank).reverse

def jsonLine (j : Journal) (e : LogEntry) : Text :=
  Text.ofChars (Json.render .line (.object (j.members e)))

def line (j : Journal) (e : LogEntry) : Text :=
  match j.format with
  | .json => j.jsonLine e
  | .console => j.consoleLine e

def obstacle? (j : Journal) (e : LogEntry) : Option Json.Obstacle :=
  match j.format with
  | .json => Json.obstacle? true j.depth (.object (j.members e))
  | .console => (j.otherMembers e).findSome? fun m => Json.obstacle? false j.depth m.2

/-- The lines of the entries that are severe enough, each with the time at which it comes, up to the
first that cannot be written. -/
def writeAll (j : Journal) : List (Text × LogEntry) → Written
  | [] => ⟨[], none⟩
  | (time, e) :: es =>
    if e.level.severity < j.threshold then writeAll j es
    else
      match { j with time := time }.obstacle? e with
      | some o => ⟨[], some (.unwritable o)⟩
      | none =>
        let rest := writeAll j es
        ⟨{ j with time := time }.line e ++ .char '\n' :: rest.output, rest.failure⟩

def write (j : Journal) (es : List (Text × LogEntry)) : Written :=
  if j.threshold ∈ thresholds then j.writeAll es else ⟨[], some (.unknownThreshold j.threshold)⟩

end Journal

end Terraload
