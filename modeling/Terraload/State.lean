import Terraload.Encoding
import Terraload.Json.Reader
import Terraload.Validation.Report
/-!
Deployment state: the modules of a project with their outputs and resources, and its reading from
JSON. Members that are not known are ignored, members that are missing have defaults.
-/
namespace Terraload

structure RemoteState where
  type : Text
  config : Members Value
  deriving DecidableEq

structure BackendState where
  type : Text
  config : Members Value
  hash : Int
  deriving DecidableEq

structure OutputState where
  sensitive : Bool
  type : Text
  value : Value
  deriving DecidableEq

structure InstanceState where
  id : Text
  attributes : Members Value
  metadata : Members Value
  tainted : Bool
  deriving DecidableEq

structure ResourceState where
  type : Text
  dependsOn : List Text
  primary : Option InstanceState
  deposed : List InstanceState
  provider : Text
  deriving DecidableEq

structure ModuleState where
  path : List Text
  outputs : Members OutputState
  resources : Members ResourceState
  dependsOn : List Text
  deriving DecidableEq

structure State where
  version : Int
  terraformVersion : Text
  serial : Int
  lineage : Text
  remote : Option RemoteState
  backend : Option BackendState
  modules : List ModuleState
  deriving DecidableEq

def ModuleState.isRoot (m : ModuleState) : Bool := m.path == [text "root"]

namespace State

def empty : State := ⟨0, [], 0, [], none, none, []⟩

def isEmpty (s : State) : Bool :=
  s.version == 0 && s.terraformVersion.isEmpty && s.serial == 0 && s.lineage.isEmpty
    && s.remote.isNone && s.backend.isNone && s.modules.isEmpty

def rootModule? (s : State) : Option ModuleState := s.modules.find? ModuleState.isRoot

end State

open Check

def RemoteState.check : Check RemoteState := object fun ms =>
  ((field ms "type" [] string).map RemoteState.mk).ap (field ms "config" [] (map any))

def BackendState.check : Check BackendState := object fun ms =>
  (((field ms "type" [] string).map BackendState.mk).ap
    (field ms "config" [] (map any))).ap
    (field ms "hash" 0 integer)

def OutputState.check : Check OutputState := object fun ms =>
  (((field ms "sensitive" false boolean).map OutputState.mk).ap
    (field ms "type" [] string)).ap
    (field ms "value" .null any)

def InstanceState.check : Check InstanceState := object fun ms =>
  ((((field ms "id" [] string).map InstanceState.mk).ap
    (field ms "attributes" [] (map any))).ap
    (field ms "meta" [] (map any))).ap
    (field ms "tainted" false boolean)

def ResourceState.check : Check ResourceState := object fun ms =>
  (((((field ms "type" [] string).map ResourceState.mk).ap
    (field ms "depends_on" [] (list string))).ap
    (field ms "primary" none (nullable InstanceState.check))).ap
    (field ms "deposed" [] (list InstanceState.check))).ap
    (field ms "provider" [] string)

def ModuleState.check : Check ModuleState := object fun ms =>
  ((((field ms "path" [] (list string)).map ModuleState.mk).ap
    (field ms "outputs" [] (map OutputState.check))).ap
    (field ms "resources" [] (map ResourceState.check))).ap
    (field ms "depends_on" [] (list string))

def State.check : Check State := object fun ms =>
  (((((((field ms "version" 0 integer).map State.mk).ap
    (field ms "terraform_version" [] string)).ap
    (field ms "serial" 0 integer)).ap
    (field ms "lineage" [] string)).ap
    (field ms "remote" none (nullable RemoteState.check))).ap
    (field ms "backend" none (nullable BackendState.check))).ap
    (field ms "modules" [] (list ModuleState.check))

def State.decodeValue? (bytes : Bytes) : Option Value :=
  match Encoding.decodeUtf8 bytes with
  | .error _ => none
  | .ok cs => (Json.read .strict (Text.ofChars cs)).toOption

def State.decode (bytes : Bytes) : Verdict State :=
  match State.decodeValue? bytes with
  | none => .failed [⟨[], .invalidText⟩]
  | some v => State.check v

/-- A report on the problems of a state: on its bytes if they are no JSON at all, else on the values
in it. -/
def State.report (bytes : Bytes) (ps : List Problem) : Text :=
  let subject := match State.decodeValue? bytes with
    | none => ReportSubject.bytes bytes
    | some v => .value v
  Problem.report "TFState" subject ps

def textList (ts : List Text) : Value := .list (ts.map .text)

def objectOf (ms : List (String × Value)) : Value := .object (ms.map fun (k, v) => (text k, v))

def RemoteState.toValue (s : RemoteState) : Value :=
  objectOf [("type", .text s.type), ("config", .object s.config)]

def BackendState.toValue (s : BackendState) : Value :=
  objectOf [("type", .text s.type), ("config", .object s.config), ("hash", .integer s.hash)]

def OutputState.toValue (s : OutputState) : Value :=
  objectOf [("sensitive", .boolean s.sensitive), ("type", .text s.type), ("value", s.value)]

def InstanceState.toValue (s : InstanceState) : Value :=
  objectOf [("id", .text s.id), ("attributes", .object s.attributes), ("meta", .object s.metadata),
    ("tainted", .boolean s.tainted)]

def optional {α : Type} (f : α → Value) : Option α → Value
  | none => .null
  | some a => f a

def ResourceState.toValue (s : ResourceState) : Value :=
  objectOf [("type", .text s.type), ("depends_on", textList s.dependsOn),
    ("primary", optional InstanceState.toValue s.primary),
    ("deposed", .list (s.deposed.map InstanceState.toValue)), ("provider", .text s.provider)]

def ModuleState.toValue (s : ModuleState) : Value :=
  objectOf [("path", textList s.path),
    ("outputs", .object (s.outputs.map fun m => (m.1, m.2.toValue))),
    ("resources", .object (s.resources.map fun m => (m.1, m.2.toValue))),
    ("depends_on", textList s.dependsOn)]

def State.toValue (s : State) : Value :=
  objectOf [("version", .integer s.version), ("terraform_version", .text s.terraformVersion),
    ("serial", .integer s.serial), ("lineage", .text s.lineage),
    ("remote", optional RemoteState.toValue s.remote),
    ("backend", optional BackendState.toValue s.backend),
    ("modules", .list (s.modules.map ModuleState.toValue))]

end Terraload
