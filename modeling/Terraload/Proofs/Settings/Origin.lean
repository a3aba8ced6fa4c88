import Terraload.Proofs.Members
import Terraload.Proofs.Text
import Terraload.Proofs.Validation
import Terraload.Settings
/-!
Where the texts in settings come from: variables of the environment, the file that binds variables,
which has characters alone, and defaults.
-/
namespace Terraload

variable {x : Surrogate}

namespace EnvFile

variable {known : Members (Option Text)} {environment : Members Text}

def Without (a : CodePoint) (known : Members (Option Text)) : Prop :=
  ∀ m ∈ known, ∀ t, m.2 = some t → a ∉ t

theorem surrogate_expand {lookup : Text → Option Text}
    (h : ∀ name t, lookup name = some t → .surrogate x ∉ t) (n : Nat) (w : List Char) :
    .surrogate x ∉ expand lookup n w := by
  induction n generalizing w with
  | zero => exact List.not_mem_nil
  | succ n ih =>
    cases w with
    | nil => exact List.not_mem_nil
    | cons c r =>
      unfold expand
      split
      next name default rest _ =>
        rw [List.mem_append, not_or]
        refine ⟨?_, ih rest⟩
        cases hname : lookup (Text.ofChars name) with
        | none => exact Text.surrogate_notMem_ofChars x _
        | some t => exact h _ t hname
      next =>
        rw [List.mem_cons, not_or]
        exact ⟨CodePoint.noConfusion, ih r⟩

theorem Without.resolve (hknown : Without (.surrogate x) known)
    (henvironment : ∀ m ∈ environment, .surrogate x ∉ m.2) (bs : List Binding) :
    Without (.surrogate x) (resolve environment bs known) := by
  induction bs generalizing known with
  | nil => exact hknown
  | cons b bs ih =>
    refine ih fun m hm t ht => ?_
    obtain rfl | hm := Members.mem_put hm
    · obtain ⟨w, -, rfl⟩ := Option.map_eq_some_iff.mp ht
      refine surrogate_expand (fun name t hname => ?_) _ w
      split at hname
      next v hv =>
        cases hname
        cases v with
        | none => exact List.not_mem_nil
        | some t => exact hknown _ (Members.mem_of_get? hv) t rfl
      next => exact henvironment _ (Members.mem_of_get? hname)
    · exact hknown m hm t ht

theorem read_without (henvironment : ∀ m ∈ environment, .surrogate x ∉ m.2) {bytes : Bytes}
    (h : read environment bytes = .ok known) : Without (.surrogate x) known := by
  unfold read at h
  cases hdecode : Encoding.decodeUtf8 bytes with
  | error p =>
    rw [hdecode] at h
    cases h
  | ok cs =>
    rw [hdecode] at h
    cases h
    exact Without.resolve (fun m hm => absurd hm List.not_mem_nil) henvironment _

end EnvFile

namespace Settings

variable {sources : Sources} {settings : Settings}

/-- What is found under a name in lower case is what some member stands for. -/
theorem mem_of_lookup {α : Type} {name : Text} {ms : Members α} {a : α}
    (h : lookup name ms = some a) : ∃ m ∈ ms, m.2 = a := by
  obtain ⟨m, hm, rfl⟩ := Option.map_eq_some_iff.mp h
  exact ⟨m, List.mem_reverse.mp (List.mem_of_find?_eq_some hm), rfl⟩

structure Sources.Without (a : CodePoint) (s : Sources) : Prop where
  overrides : s.overrides = []
  environment : ∀ m ∈ s.environment, a ∉ m.2
  envFile : EnvFile.Without a s.envFile

theorem Sources.Without.value (h : sources.Without (.surrogate x)) {name t : Text}
    (ht : sources.value? name = some (.text t)) : .surrogate x ∉ t := by
  unfold value? at ht
  rw [h.overrides] at ht
  simp only [lookup, List.reverse_nil, List.find?_nil, Option.map_none] at ht
  split at ht
  next u hu =>
    cases ht
    obtain ⟨m, hm, rfl⟩ := mem_of_lookup hu
    exact h.environment m hm
  next =>
    obtain ⟨u, hu, heq⟩ := Option.map_eq_some_iff.mp ht
    cases heq
    obtain ⟨v, hv, hid⟩ := Option.bind_eq_some_iff.mp hu
    obtain ⟨m, hm, rfl⟩ := mem_of_lookup hv
    exact h.envFile m hm t hid

/-- A field that is a text is one of the sources, or its default. -/
theorem Sources.Without.field (h : sources.Without (.surrogate x)) {name : String}
    {default t : Text} {c : Check Text} (hc : ∀ v t, c v = .passed t → v = .text t)
    (hdefault : .surrogate x ∉ default) (ht : sources.field name default c = .passed t) :
    .surrogate x ∉ t := by
  unfold Sources.field at ht
  split at ht
  next v hv =>
    rw [hc v t (Verdict.within_eq_passed.mp ht)] at hv
    exact h.value hv
  next =>
    cases ht
    exact hdefault

structure Without (a : CodePoint) (s : Settings) : Prop where
  extension : a ∉ s.templateExtension
  modules : a ∉ s.moduleDir

theorem resolve_without (h : sources.Without (.surrogate x))
    (hsettings : resolve sources = .passed settings) : settings.Without (.surrogate x) := by
  simp only [resolve, Verdict.ap_eq_passed, Verdict.map_eq_passed] at hsettings
  obtain ⟨_, _, ⟨_, _, ⟨_, _, ⟨_, _, ⟨_, modules, ⟨_, extension, ⟨_, _, rfl⟩, hextension, rfl⟩, hmodules,
    rfl⟩, -, rfl⟩, -, rfl⟩, -, rfl⟩, -, rfl⟩ := hsettings
  exact ⟨h.field (fun _ _ => Check.text_of_nonEmptyString) (Text.surrogate_notMem_ofChars x _) hextension,
    h.field (fun _ _ => Check.text_of_string) (Text.surrogate_notMem_ofChars x _) hmodules⟩

/-- A surrogate comes into settings from the environment alone. -/
theorem load_without {fs : FileSystem} {environment : Members Text}
    (henvironment : ∀ m ∈ environment, .surrogate x ∉ m.2)
    (h : load fs environment [] = .ok (.passed settings)) : settings.Without (.surrogate x) := by
  unfold load at h
  cases hfile : readEnvFile fs environment with
  | error p =>
    rw [hfile] at h
    cases h
  | ok envFile =>
    rw [hfile] at h
    refine resolve_without ⟨rfl, henvironment, ?_⟩ (Except.ok.inj h)
    unfold readEnvFile at hfile
    split at hfile
    · exact EnvFile.read_without henvironment hfile
    · cases hfile
      exact fun m hm => absurd hm List.not_mem_nil

end Settings

end Terraload
