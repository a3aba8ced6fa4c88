import Terraload.Value
/-!
What a session counts.
-/
namespace Terraload

structure Metrics where
  templatesLoaded : Nat
  moduleFilesLoaded : Nat
  tfvarsLoaded : Nat
  tfvarsSkipped : Nat
  stateSource : Text
  stateLoaded : Bool
  deriving DecidableEq

namespace Metrics

def localSource : Text := text "local"
def remoteSource : Text := text "remote"
def noSource : Text := text "none"

def zero : Metrics := ⟨0, 0, 0, 0, noSource, false⟩

def recordTemplate (m : Metrics) : Metrics := { m with templatesLoaded := m.templatesLoaded + 1 }

def recordModuleFile (m : Metrics) : Metrics :=
  { m with moduleFilesLoaded := m.moduleFilesLoaded + 1 }

def recordTfvarsLoaded (m : Metrics) : Metrics := { m with tfvarsLoaded := m.tfvarsLoaded + 1 }

def recordTfvarsSkipped (m : Metrics) : Metrics := { m with tfvarsSkipped := m.tfvarsSkipped + 1 }

def recordState (m : Metrics) (source : Text) (loaded : Bool) : Metrics :=
  { m with stateSource := source, stateLoaded := loaded }

def toValue (m : Metrics) : Value :=
  .object [
    (text "templates_loaded_total", .integer m.templatesLoaded),
    (text "module_files_loaded_total", .integer m.moduleFilesLoaded),
    (text "tfvars_loaded_total", .integer m.tfvarsLoaded),
    (text "tfvars_skipped_total", .integer m.tfvarsSkipped),
    (text "state_source", .text m.stateSource),
    (text "state_loaded", .boolean m.stateLoaded)]

end Metrics

end Terraload
