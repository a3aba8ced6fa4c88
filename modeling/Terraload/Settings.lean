import Terraload.FileSystem
import Terraload.Settings.EnvFile
import Terraload.Validation
/-!
The settings of a session and where their values come from: overrides, the environment, the file
`.env` in the working directory, and defaults, in this order and for each field by itself.
-/
namespace Terraload

structure Settings where
  debug : Bool
  templateExtension : Text
  moduleDir : Text
  environmentFile : Text
  localStatePath : Text
  workspaceStateDir : Text
  remoteStatePath : Text
  deriving DecidableEq

namespace Settings

def default : Settings where
  debug := false
  templateExtension := text "tf"
  moduleDir := text ".terraform/modules"
  environmentFile := text ".terraform/environment"
  localStatePath := text "terraform.tfstate"
  workspaceStateDir := text "terraform.tfstate.d"
  remoteStatePath := text ".terraform/terraform.tfstate"

def workspaceStatePath (s : Settings) (environment : Text) : Text :=
  s.workspaceStateDir ++ text "/" ++ environment ++ text "/terraform.tfstate"

def modulePath (s : Settings) (key : Text) : Text := s.moduleDir ++ text "/" ++ key

def toValue (s : Settings) : Value :=
  .object [
    (text "debug", .boolean s.debug),
    (text "template_extension", .text s.templateExtension),
    (text "module_dir", .text s.moduleDir),
    (text "environment_file", .text s.environmentFile),
    (text "local_state_path", .text s.localStatePath),
    (text "workspace_state_dir", .text s.workspaceStateDir),
    (text "remote_state_path", .text s.remoteStatePath)]

structure Sources where
  overrides : Members Value
  environment : Members Text
  envFile : Members (Option Text)

/-- A letter in lower case. The Kelvin sign counts as the letter it looks like. -/
def lower (c : CodePoint) : CodePoint :=
  if 65 ≤ c.val ∧ c.val ≤ 90 then .ofNat (c.val + 32)
  else if c.val = 0x212A then .char 'k' else c

/-- What the last name says that is equal to `name` in lower case. -/
def lookup {α : Type} (name : Text) (ms : Members α) : Option α :=
  (ms.reverse.find? fun m => m.1.map lower == name).map (·.2)

def variablePrefix : Text := text "tflint_"

def Sources.value? (s : Sources) (name : Text) : Option Value :=
  match lookup name s.overrides with
  | some v => some v
  | none =>
    match lookup (variablePrefix ++ name) s.environment with
    | some t => some (.text t)
    | none => ((lookup (variablePrefix ++ name) s.envFile).bind id).map .text

def Sources.field {α : Type} (s : Sources) (name : String) (default : α) (c : Check α) :
    Verdict α :=
  match s.value? (text name) with
  | some v => (c v).within (.member (text name))
  | none => .passed default

def resolve (s : Sources) : Verdict Settings :=
  (((((((s.field "debug" default.debug Check.boolean).map Settings.mk).ap
    (s.field "template_extension" default.templateExtension Check.nonEmptyString)).ap
    (s.field "module_dir" default.moduleDir Check.string)).ap
    (s.field "environment_file" default.environmentFile Check.string)).ap
    (s.field "local_state_path" default.localStatePath Check.string)).ap
    (s.field "workspace_state_dir" default.workspaceStateDir Check.string)).ap
    (s.field "remote_state_path" default.remoteStatePath Check.string)

def envFileName : Text := text ".env"

/-- The variables of the file in the working directory; where there is no such file there are
none. -/
def readEnvFile (fs : FileSystem) (environment : Members Text) :
    Except Encoding.Problem (Members (Option Text)) :=
  match fs.locate true envFileName with
  | .ok (_, .file bytes) => EnvFile.read environment bytes
  | _ => .ok []

def load (fs : FileSystem) (environment : Members Text) (overrides : Members Value) :
    Except Encoding.Problem (Verdict Settings) := do
  let envFile ← readEnvFile fs environment
  return resolve ⟨overrides, environment, envFile⟩

end Settings

end Terraload
