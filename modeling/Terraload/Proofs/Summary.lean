import Terraload.Proofs.Json.Writing
import Terraload.Summary
/-!
The summary of a session as a document, and that what is written of it is a text of this document.
-/
namespace Terraload

def State.rootResources (s : State) : Nat :=
  match s.modules.find? fun m => m.path = [text "root"] with
  | some m => m.resources.length
  | none => 0

def Session.document (s : Session) : Document :=
  [(text "metrics", .object [
      (text "module_files_loaded_total", .integer s.metrics.moduleFilesLoaded),
      (text "state_loaded", .boolean s.metrics.stateLoaded),
      (text "state_source", .text s.metrics.stateSource),
      (text "templates_loaded_total", .integer s.metrics.templatesLoaded),
      (text "tfvars_loaded_total", .integer s.metrics.tfvarsLoaded),
      (text "tfvars_skipped_total", .integer s.metrics.tfvarsSkipped)]),
    (text "state", .object [
      (text "lineage", .text s.state.lineage),
      (text "loaded", .boolean !s.state.isEmpty),
      (text "module_count", .integer s.state.modules.length),
      (text "root_resource_count", .integer s.state.rootResources),
      (text "serial", .integer s.state.serial)]),
    (text "templates", .list (s.store.keys.map .text)),
    (text "tfvars_count", .integer s.tfvars.length)]

namespace Summary

variable {s : Summary}

/-- An object with other members in order, if these are its members and ascend. -/
theorem arranged_eq {ms bs : Members Value} (hnodup : (Members.names ms).Nodup)
    (h : (Members.names bs).Pairwise fun a b => a.vals < b.vals)
    (hmem : ∀ m, m ∈ ms.map (fun m => (m.1, m.2.arranged)) ↔ m ∈ bs) :
    Value.arranged (.object ms) = .object bs := by
  rw [Value.arranged_object]
  refine congrArg Value.object (Members.sorted_eq ?_ h hmem)
  rwa [Members.names, List.map_map]

theorem arranged_metrics (m : Metrics) : m.toValue.arranged = .object [
    (text "module_files_loaded_total", .integer m.moduleFilesLoaded),
    (text "state_loaded", .boolean m.stateLoaded),
    (text "state_source", .text m.stateSource),
    (text "templates_loaded_total", .integer m.templatesLoaded),
    (text "tfvars_loaded_total", .integer m.tfvarsLoaded),
    (text "tfvars_skipped_total", .integer m.tfvarsSkipped)] := by
  refine arranged_eq ?_ ?_ fun x => ?_
  · simp only [Members.names, List.map_cons, List.map_nil]
    decide
  · simp only [Members.names, List.map_cons, List.map_nil]
    decide
  · simp only [List.map_cons, List.map_nil, List.mem_cons, List.not_mem_nil, Value.arranged]
    apply iff_of_eq
    ac_rfl

theorem arranged_state (loaded : Bool) (serial : Int) (lineage : Text) (modules resources : Nat) :
    Value.arranged (.object [(text "loaded", .boolean loaded), (text "serial", .integer serial),
      (text "lineage", .text lineage), (text "module_count", .integer modules),
      (text "root_resource_count", .integer resources)]) =
    .object [(text "lineage", .text lineage), (text "loaded", .boolean loaded),
      (text "module_count", .integer modules), (text "root_resource_count", .integer resources),
      (text "serial", .integer serial)] := by
  refine arranged_eq ?_ ?_ fun x => ?_
  · simp only [Members.names, List.map_cons, List.map_nil]
    decide
  · simp only [Members.names, List.map_cons, List.map_nil]
    decide
  · simp only [List.map_cons, List.map_nil, List.mem_cons, List.not_mem_nil, Value.arranged]
    apply iff_of_eq
    ac_rfl

theorem rootResourceCount_eq (s : Session) :
    (ofSession s).rootResourceCount = s.state.rootResources := by
  have hroot : ModuleState.isRoot = fun m => decide (m.path = [text "root"]) := by
    funext m
    exact beq_eq_decide _ _
  rw [ofSession, State.rootModule?, hroot, State.rootResources]
  cases List.find? _ s.state.modules <;> rfl

theorem arranged_ofSession (s : Session) : (ofSession s).toValue.arranged = .object s.document := by
  have htemplates : Value.arranged (.list (s.store.keys.map .text)) =
      .list (s.store.keys.map .text) := by
    rw [Value.arranged_list, List.map_map]
    rfl
  have htfvars : Value.arranged (.integer s.tfvars.length) = .integer s.tfvars.length := by
    rw [Value.arranged]
  refine arranged_eq ?_ ?_ fun x => ?_
  · simp only [Members.names, List.map_cons, List.map_nil]
    decide
  · simp only [Session.document, Members.names, List.map_cons, List.map_nil]
    decide
  · simp only [Session.document, List.map_cons, List.map_nil, List.mem_cons, List.not_mem_nil,
      arranged_state, arranged_metrics, rootResourceCount_eq]
    simp only [ofSession, htemplates, htfvars]
    apply iff_of_eq
    ac_rfl

/-- A summary is written only if all its numbers can be read back. -/
theorem json?_eq_some {t : Text} (h : s.json? = some t) :
    (∀ n ∈ s.numbers, (natDigits n.natAbs).length ≤ Json.digitLimit) ∧
      t = Text.ofChars (Json.render (.indented 2) s.toValue) := by
  unfold json? at h
  split at h
  next hnumbers =>
    cases h
    exact ⟨by simpa using hnumbers, rfl⟩
  · cases h

theorem writable (hnumbers : ∀ n ∈ s.numbers, (natDigits n.natAbs).length ≤ Json.digitLimit)
    (htemplates : ∀ k ∈ s.templates, k.Decoded) (hlineage : s.lineage.Decoded)
    (hsource : s.metrics.stateSource.Decoded) : Json.Writable true 2 s.toValue := by
  have hinteger {depth : Nat} {n : Int} (hn : n ∈ s.numbers) :
      Json.Writable true depth (.integer n) :=
    .integer (hnumbers n hn)
  have hkeys : Json.Writable true 1 (.list (s.templates.map .text)) := by
    refine .list fun v hv => ?_
    obtain ⟨k, hk, rfl⟩ := List.mem_map.mp hv
    exact .text (Json.legible_of_decoded (htemplates k hk))
  have hstate : Json.Writable true 1 (.object [
      (text "loaded", .boolean s.stateLoaded), (text "serial", .integer s.serial),
      (text "lineage", .text s.lineage), (text "module_count", .integer s.moduleCount),
      (text "root_resource_count", .integer s.rootResourceCount)]) := by
    refine Json.Writable.of_names ["loaded", "serial", "lineage", "module_count",
      "root_resource_count"] rfl (by decide) ?_
    simp only [List.forall_mem_cons]
    exact ⟨.boolean _, hinteger (by simp [numbers]), .text (Json.legible_of_decoded hlineage),
      hinteger (by simp [numbers]), hinteger (by simp [numbers]),
      fun m hm => absurd hm List.not_mem_nil⟩
  have hmetrics : Json.Writable true 1 s.metrics.toValue := by
    refine Json.Writable.of_names ["templates_loaded_total", "module_files_loaded_total",
      "tfvars_loaded_total", "tfvars_skipped_total", "state_source", "state_loaded"]
      rfl (by decide) ?_
    simp only [List.forall_mem_cons]
    exact ⟨hinteger (by simp [numbers]), hinteger (by simp [numbers]), hinteger (by simp [numbers]),
      hinteger (by simp [numbers]), .text (Json.legible_of_decoded hsource), .boolean _,
      fun m hm => absurd hm List.not_mem_nil⟩
  refine Json.Writable.of_names ["templates", "tfvars_count", "state", "metrics"] rfl (by decide) ?_
  simp only [List.forall_mem_cons]
  exact ⟨hkeys, hinteger (by simp [numbers]), hstate, hmetrics,
    fun m hm => absurd hm List.not_mem_nil⟩

end Summary

end Terraload
