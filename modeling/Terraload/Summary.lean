import Terraload.Json.Writer
import Terraload.Session
import Terraload.Text.Styles
/-!
What a session holds, in numbers and names, for reading and as JSON. It is not printed to a terminal,
so that sequences for one are left out of what is for reading; in JSON they are escaped.
-/
namespace Terraload

structure Summary where
  templates : List Text
  tfvarsCount : Nat
  stateLoaded : Bool
  serial : Int
  lineage : Text
  moduleCount : Nat
  rootResourceCount : Nat
  metrics : Metrics

namespace Summary

/-- The summary of a session. The resources are those of the first root module. -/
def ofSession (s : Session) : Summary where
  templates := s.store.keys
  tfvarsCount := s.tfvars.length
  stateLoaded := !s.state.isEmpty
  serial := s.state.serial
  lineage := s.state.lineage
  moduleCount := s.state.modules.length
  rootResourceCount := (s.state.rootModule?.map fun m => m.resources.length).getD 0
  metrics := s.metrics

def toValue (s : Summary) : Value :=
  .object [
    (text "templates", .list (s.templates.map .text)),
    (text "tfvars_count", .integer s.tfvarsCount),
    (text "state", .object [
      (text "loaded", .boolean s.stateLoaded),
      (text "serial", .integer s.serial),
      (text "lineage", .text s.lineage),
      (text "module_count", .integer s.moduleCount),
      (text "root_resource_count", .integer s.rootResourceCount)]),
    (text "metrics", s.metrics.toValue)]

def numbers (s : Summary) : List Int :=
  [s.tfvarsCount, s.serial, s.moduleCount, s.rootResourceCount, s.metrics.templatesLoaded,
    s.metrics.moduleFilesLoaded, s.metrics.tfvarsLoaded, s.metrics.tfvarsSkipped]

/-- The summary as JSON, two blanks a level. No number of more digits than can be read back is
written. -/
def json? (s : Summary) : Option Text :=
  if s.numbers.all fun n => (natDigits n.natAbs).length ≤ Json.digitLimit then
    some (Text.ofChars (Json.render (.indented 2) s.toValue))
  else none

def stateLine (s : Summary) : Text :=
  if s.stateLoaded then
    text "State: serial " ++ Text.ofChars (intDigits s.serial) ++ text ", lineage "
      ++ s.lineage.unstyled
  else text "State: none"

def lines (s : Summary) : List Text :=
  [text "Templates: " ++ Text.ofChars (natDigits s.templates.length)]
    ++ s.templates.map (fun k => text "  - " ++ k.unstyled)
    ++ [text "Tfvars: " ++ Text.ofChars (natDigits s.tfvarsCount), s.stateLine]

end Summary

end Terraload
