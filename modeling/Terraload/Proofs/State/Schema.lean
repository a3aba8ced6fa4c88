import Terraload.Proofs.Schema
import Terraload.State
/-!
What the checks of a state ask for: the fields of each of its parts, with their defaults. Every
default passes the check of its own field, and every part is checked alike however it is told.
-/
namespace Terraload

open Check

def RemoteState.schema : Schema := .record [
  ("type", .text [], .plain),
  ("config", .object [], .plain)]

def BackendState.schema : Schema := .record [
  ("type", .text [], .plain),
  ("config", .object [], .plain),
  ("hash", .integer 0, .plain)]

def OutputState.schema : Schema := .record [
  ("sensitive", .boolean false, .plain),
  ("type", .text [], .plain),
  ("value", .null, .plain)]

def InstanceState.schema : Schema := .record [
  ("id", .text [], .plain),
  ("attributes", .object [], .plain),
  ("meta", .object [], .plain),
  ("tainted", .boolean false, .plain)]

def ResourceState.schema : Schema := .record [
  ("type", .text [], .plain),
  ("depends_on", .list [], .plain),
  ("primary", .null, .nullable InstanceState.schema),
  ("deposed", .list [], .list InstanceState.schema),
  ("provider", .text [], .plain)]

def ModuleState.schema : Schema := .record [
  ("path", .list [], .plain),
  ("outputs", .object [], .map OutputState.schema),
  ("resources", .object [], .map ResourceState.schema),
  ("depends_on", .list [], .plain)]

def State.schema : Schema := .record [
  ("version", .integer 0, .plain),
  ("terraform_version", .text [], .plain),
  ("serial", .integer 0, .plain),
  ("lineage", .text [], .plain),
  ("remote", .null, .nullable RemoteState.schema),
  ("backend", .null, .nullable BackendState.schema),
  ("modules", .list [], .list ModuleState.schema)]

theorem RemoteState.respects : Respects schema check := Respects.record fun h => by
  rw [h.field "type" [] string rfl rfl (Respects.plain _),
    h.field "config" [] (map any) rfl rfl (Respects.plain _)]

theorem BackendState.respects : Respects schema check := Respects.record fun h => by
  rw [h.field "type" [] string rfl rfl (Respects.plain _),
    h.field "config" [] (map any) rfl rfl (Respects.plain _),
    h.field "hash" 0 integer rfl rfl (Respects.plain _)]

theorem OutputState.respects : Respects schema check := Respects.record fun h => by
  rw [h.field "sensitive" false boolean rfl rfl (Respects.plain _),
    h.field "type" [] string rfl rfl (Respects.plain _),
    h.field "value" .null any rfl rfl (Respects.plain _)]

theorem InstanceState.respects : Respects schema check := Respects.record fun h => by
  rw [h.field "id" [] string rfl rfl (Respects.plain _),
    h.field "attributes" [] (map any) rfl rfl (Respects.plain _),
    h.field "meta" [] (map any) rfl rfl (Respects.plain _),
    h.field "tainted" false boolean rfl rfl (Respects.plain _)]

theorem ResourceState.respects : Respects schema check := Respects.record fun h => by
  rw [h.field "type" [] string rfl rfl (Respects.plain _),
    h.field "depends_on" [] (list string) rfl rfl (Respects.plain _),
    h.field "primary" none (nullable InstanceState.check) rfl rfl InstanceState.respects.nullable,
    h.field "deposed" [] (list InstanceState.check) rfl rfl InstanceState.respects.list,
    h.field "provider" [] string rfl rfl (Respects.plain _)]

theorem ModuleState.respects : Respects schema check := Respects.record fun h => by
  rw [h.field "path" [] (list string) rfl rfl (Respects.plain _),
    h.field "outputs" [] (map OutputState.check) rfl rfl OutputState.respects.map,
    h.field "resources" [] (map ResourceState.check) rfl rfl ResourceState.respects.map,
    h.field "depends_on" [] (list string) rfl rfl (Respects.plain _)]

theorem State.respects : Respects schema check := Respects.record fun h => by
  rw [h.field "version" 0 integer rfl rfl (Respects.plain _),
    h.field "terraform_version" [] string rfl rfl (Respects.plain _),
    h.field "serial" 0 integer rfl rfl (Respects.plain _),
    h.field "lineage" [] string rfl rfl (Respects.plain _),
    h.field "remote" none (nullable RemoteState.check) rfl rfl RemoteState.respects.nullable,
    h.field "backend" none (nullable BackendState.check) rfl rfl BackendState.respects.nullable,
    h.field "modules" [] (list ModuleState.check) rfl rfl ModuleState.respects.list]

end Terraload
