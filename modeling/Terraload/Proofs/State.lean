import Terraload.Proofs.Encoding
import Terraload.Proofs.Json.Parts
import Terraload.Proofs.Validation
import Terraload.State
/-!
The bytes of a state: where they write characters, the value of these is checked. The lineage of a
state that was decoded is made of characters, as they are UTF-8 and are read strictly, and its
serial is not longer than an integer may be.
-/
namespace Terraload.State

variable {x : Surrogate} {state : State} {bytes : Bytes}

/-- The state of characters that were encoded is that of the value they are read as, if any. -/
theorem decode_encode (cs : List Char) : decode (Encoding.encode (Text.ofChars cs)) =
    match Json.read .strict (Text.ofChars cs) with
    | .ok v => check v
    | .error _ => .failed [⟨[], .invalidText⟩] := by
  rw [decode, decodeValue?, Encoding.decodeUtf8_encode]
  dsimp only
  cases Json.read .strict (Text.ofChars cs) <;> rfl

theorem decodeValue?_eq_some {v : Value} (h : decodeValue? bytes = some v) :
    ∃ cs, Json.read .strict (Text.ofChars cs) = .ok v := by
  unfold decodeValue? at h
  split at h
  · cases h
  next cs _ =>
    refine ⟨cs, ?_⟩
    cases hread : Json.read .strict (Text.ofChars cs) with
    | error e =>
      rw [hread] at h
      cases h
    | ok w =>
      rw [hread] at h
      cases h
      rfl

/-- A state that was passed was made of an object, each field of it of a member or a default. -/
theorem fields_of_check {v : Value} (h : check v = .passed state) : ∃ ms, v = .object ms ∧
    Check.field ms "version" 0 Check.integer = .passed state.version ∧
    Check.field ms "terraform_version" [] Check.string = .passed state.terraformVersion ∧
    Check.field ms "serial" 0 Check.integer = .passed state.serial ∧
    Check.field ms "lineage" [] Check.string = .passed state.lineage ∧
    Check.field ms "remote" none (Check.nullable RemoteState.check) = .passed state.remote ∧
    Check.field ms "backend" none (Check.nullable BackendState.check) = .passed state.backend ∧
    Check.field ms "modules" [] (Check.list ModuleState.check) = .passed state.modules := by
  unfold check at h
  obtain ⟨ms, rfl, hfields⟩ := Check.object_eq_passed h
  simp only [Verdict.ap_eq_passed, Verdict.map_eq_passed] at hfields
  obtain ⟨_, _, ⟨_, _, ⟨_, _, ⟨_, _, ⟨_, _, ⟨_, _, ⟨_, hversion, rfl⟩, hterraform, rfl⟩, hserial, rfl⟩,
    hlineage, rfl⟩, hremote, rfl⟩, hbackend, rfl⟩, hmodules, rfl⟩ := hfields
  exact ⟨ms, rfl, hversion, hterraform, hserial, hlineage, hremote, hbackend, hmodules⟩

/-- A state that was decoded was read as a value and checked. -/
theorem read_of_decode (h : decode bytes = .passed state) : ∃ cs v,
    Json.read .strict (Text.ofChars cs) = .ok v ∧ check v = .passed state := by
  unfold decode at h
  split at h
  · cases h
  next v hv =>
    obtain ⟨cs, hread⟩ := decodeValue?_eq_some hv
    exact ⟨cs, v, hread, h⟩

theorem lineage_no_surrogate (h : decode bytes = .passed state) : .surrogate x ∉ state.lineage := by
  obtain ⟨cs, v, hread, hcheck⟩ := read_of_decode h
  obtain ⟨ms, rfl, -, -, -, hlineage, -⟩ := fields_of_check hcheck
  obtain hempty | ⟨w, hw, hstring⟩ := Check.field_eq_passed hlineage
  · rw [hempty]
    exact List.not_mem_nil
  · rw [Check.text_of_string hstring] at hw
    exact Json.member_no_surrogate hread (Text.surrogate_notMem_ofChars x cs)
      (Members.mem_of_get? hw)

/-- The serial of a state that was decoded has no more digits than are written. -/
theorem digits_serial (h : decode bytes = .passed state) :
    (natDigits state.serial.natAbs).length ≤ Json.digitLimit := by
  obtain ⟨cs, v, hread, hcheck⟩ := read_of_decode h
  obtain ⟨ms, rfl, -, -, hserial, -⟩ := fields_of_check hcheck
  obtain hzero | ⟨w, hw, hinteger⟩ := Check.field_eq_passed hserial
  · rw [hzero]
    decide
  · obtain rfl | hdigits := Check.digits_of_integer hinteger
    · exact Json.member_digits hread (Members.mem_of_get? hw)
    · exact hdigits

end Terraload.State
