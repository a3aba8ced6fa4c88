import Terraload.Proofs.Session.LoadedState
import Terraload.Proofs.Session.Pairing
import Terraload.Proofs.Session.TemplateKey
/-!
Sessions only grow. Whatever is loaded later, in whichever way it ends, no key and no override is
lost and no counter goes back. A snapshot sees this growth in all its parts but one: its state stays
the one of the moment it was taken.
-/
namespace Terraload.Session

structure Extends (s t : Session) : Prop where
  templates : s.store.templates.names <+: t.store.templates.names
  files : s.store.files.names <+: t.store.files.names
  tfvars : s.tfvars <+: t.tfvars
  templatesLoaded : s.metrics.templatesLoaded ≤ t.metrics.templatesLoaded
  moduleFilesLoaded : s.metrics.moduleFilesLoaded ≤ t.metrics.moduleFilesLoaded
  tfvarsLoaded : s.metrics.tfvarsLoaded ≤ t.metrics.tfvarsLoaded
  tfvarsSkipped : s.metrics.tfvarsSkipped ≤ t.metrics.tfvarsSkipped

variable {config : Config} {s t u : Session}

theorem Extends.refl (s : Session) : Extends s s :=
  ⟨List.prefix_rfl, List.prefix_rfl, List.prefix_rfl, Nat.le_refl _, Nat.le_refl _, Nat.le_refl _,
    Nat.le_refl _⟩

theorem Extends.trans (h : Extends s t) (h' : Extends t u) : Extends s u where
  templates := h.templates.trans h'.templates
  files := h.files.trans h'.files
  tfvars := h.tfvars.trans h'.tfvars
  templatesLoaded := h.templatesLoaded.trans h'.templatesLoaded
  moduleFilesLoaded := h.moduleFilesLoaded.trans h'.moduleFilesLoaded
  tfvarsLoaded := h.tfvarsLoaded.trans h'.tfvarsLoaded
  tfvarsSkipped := h.tfvarsSkipped.trans h'.tfvarsSkipped

theorem Change.extends (h : Change config s t) : Extends s t := by
  cases h with
  | @template d bytes key hparse =>
    exact { Extends.refl s with
      templates := Members.names_prefix_put key d _
      files := Members.names_prefix_put key bytes _
      templatesLoaded := Nat.le_succ _ }
  | @moduleFile d bytes key hparse =>
    exact { Extends.refl s with
      templates := Members.names_prefix_put key d _
      files := Members.names_prefix_put key bytes _
      moduleFilesLoaded := Nat.le_succ _ }
  | stateMissed source => exact { Extends.refl s with }
  | stateLoaded state hsource => exact { Extends.refl s with }
  | tfvarsSkipped => exact { Extends.refl s with tfvarsSkipped := Nat.le_succ _ }
  | tfvarsLoaded d =>
    exact { Extends.refl s with
      tfvars := List.prefix_append _ _
      tfvarsLoaded := Nat.le_succ _ }

theorem replay_extends (config : Config) (history : List Event) (s : Session) :
    Extends s (replay config history s) :=
  replay_keeps (fun _ _ hchange h => h.trans hchange.extends) history (.refl s)

/-- A snapshot of any session, looked at after any later history: its state is the last one that had
been taken in when it was taken, while that of the session is the last one of all; each key of the
store is still in both maps, the overrides of then are the first ones of now, and no counter has
decreased. -/
theorem snapshot_replay (config : Config) (before after : List Event) :
    let dumped := replay config before empty
    let now := replay config after dumped
    let snapshot := Snapshot.take dumped
    (snapshot.state = dumped.state ∧
      snapshot.state = (statesFound config before).getLast?.getD State.empty ∧
      now.state = (statesFound config (before ++ after)).getLast?.getD State.empty) ∧
    (∀ key ∈ dumped.store.keys,
      key ∈ (snapshot.templates now).names ∧ key ∈ (snapshot.files now).names) ∧
    dumped.tfvars <+: snapshot.tfvars now ∧
    dumped.metrics.templatesLoaded ≤ now.metrics.templatesLoaded ∧
    dumped.metrics.moduleFilesLoaded ≤ now.metrics.moduleFilesLoaded ∧
    dumped.metrics.tfvarsLoaded ≤ now.metrics.tfvarsLoaded ∧
    dumped.metrics.tfvarsSkipped ≤ now.metrics.tfvarsSkipped := by
  intro dumped now snapshot
  have hextends : Extends dumped now := replay_extends config after dumped
  have hnow : now = replay config (before ++ after) empty := (replay_append before after empty).symm
  have hnames : dumped.store.templates.names = dumped.store.files.names :=
    (replay_paired config before).1
  refine ⟨⟨rfl, state_replay config before empty, ?_⟩, fun key hkey => ?_, hextends.tfvars,
    hextends.templatesLoaded, hextends.moduleFilesLoaded, hextends.tfvarsLoaded,
    hextends.tfvarsSkipped⟩
  · rw [hnow]
    exact state_replay config (before ++ after) empty
  · have htemplates : key ∈ dumped.store.templates.names := Store.mem_keys.mp hkey
    have hfiles : key ∈ dumped.store.files.names := hnames ▸ htemplates
    exact ⟨hextends.templates.subset htemplates, hextends.files.subset hfiles⟩

end Terraload.Session
