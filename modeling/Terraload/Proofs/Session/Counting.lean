import Terraload.Proofs.Session.Change
import Terraload.Proofs.Store
/-!
The counters of a session keep step with what it holds: overrides are counted one by one, a file
that is stored adds a key at most, and state that was loaded has a source.
-/
namespace Terraload

def Metrics.stored (m : Metrics) : Nat := m.templatesLoaded + m.moduleFilesLoaded

namespace Session

/-- The sessions that calls lead to from the empty one. Settings, parsers and files may be others at
each call. -/
inductive Reached : Session → Prop
  | empty : Reached empty
  | call {s : Session} (h : Reached s) (config : Config) (fs : FileSystem) (c : Call) :
      Reached (c.run config fs s).session

theorem Reached.replay {s : Session} (h : Reached s) (config : Config) (history : List Event) :
    Reached (replay config history s) := by
  induction history generalizing s with
  | nil => exact h
  | cons e es ih => exact ih (h.call config e.files e.call)

structure Counted (s : Session) : Prop where
  tfvars : s.tfvars.length = s.metrics.tfvarsLoaded
  size_le : s.store.size ≤ s.metrics.stored
  empty : s.metrics.stored = 0 → s.store = .empty
  size_pos : 0 < s.metrics.stored → 0 < s.store.size
  source : s.metrics.stateLoaded = true →
    s.metrics.stateSource = Metrics.localSource ∨ s.metrics.stateSource = Metrics.remoteSource

theorem counted_empty : Counted empty where
  tfvars := rfl
  size_le := Nat.le_refl _
  empty := fun _ => rfl
  size_pos := fun h => absurd h (Nat.lt_irrefl _)
  source := fun h => Bool.noConfusion h

/-- A file that is stored adds one to the count of files, and a key at most. -/
theorem Counted.put {s : Session} (h : Counted s) (key : Text) (d : Document) (bytes : Bytes)
    {m : Metrics} (hstored : m.stored = s.metrics.stored + 1)
    (htfvars : m.tfvarsLoaded = s.metrics.tfvarsLoaded)
    (hloaded : m.stateLoaded = s.metrics.stateLoaded)
    (hsource : m.stateSource = s.metrics.stateSource) :
    Counted { s with store := s.store.put key d bytes, metrics := m } where
  tfvars := h.tfvars.trans htfvars.symm
  size_le := by
    have hle := Store.size_put_le s.store key d bytes
    have hsize := h.size_le
    dsimp only
    omega
  empty := by
    intro hzero
    dsimp only at hzero
    omega
  size_pos := fun _ => Store.size_put_pos s.store key d bytes
  source := by
    dsimp only
    rw [hloaded, hsource]
    exact h.source

theorem Change.counted {config : Config} {s t : Session} (h : Change config s t) (hs : Counted s) :
    Counted t := by
  cases h with
  | template key hparse =>
    refine hs.put key _ _ ?_ rfl rfl rfl
    simp only [Metrics.stored, Metrics.recordTemplate]
    omega
  | moduleFile key hparse =>
    refine hs.put key _ _ ?_ rfl rfl rfl
    simp only [Metrics.stored, Metrics.recordModuleFile]
    omega
  | stateMissed source =>
    exact ⟨hs.tfvars, hs.size_le, hs.empty, hs.size_pos, fun h => Bool.noConfusion h⟩
  | stateLoaded state hsource =>
    exact ⟨hs.tfvars, hs.size_le, hs.empty, hs.size_pos, fun _ => hsource⟩
  | tfvarsSkipped => exact ⟨hs.tfvars, hs.size_le, hs.empty, hs.size_pos, hs.source⟩
  | tfvarsLoaded d =>
    refine ⟨?_, hs.size_le, hs.empty, hs.size_pos, hs.source⟩
    simp only [List.length_append, hs.tfvars, List.length_singleton, Metrics.recordTfvarsLoaded]

theorem Reached.counted {s : Session} (h : Reached s) : Counted s := by
  induction h with
  | empty => exact counted_empty
  | @call s _ config fs c ih =>
    have hchanges := run_changes config fs s c
    generalize (c.run config fs s).session = t at hchanges
    induction hchanges with
    | refl => exact ih
    | tail _ hlast ih => exact hlast.counted ih

/-- In every session that can be reached there are as many overrides as were counted and no more
keys than files were counted, the store is empty exactly where none was, and state that was loaded
came from the local file or from the remote one. -/
theorem Reached.counters {s : Session} (h : Reached s) :
    s.tfvars.length = s.metrics.tfvarsLoaded ∧
      s.store.size ≤ s.metrics.templatesLoaded + s.metrics.moduleFilesLoaded ∧
      (s.store.size = 0 ↔ s.store = .empty) ∧
      (s.store.size = 0 ↔ s.metrics.templatesLoaded = 0 ∧ s.metrics.moduleFilesLoaded = 0) ∧
      (s.metrics.stateLoaded = true →
        s.metrics.stateSource = Metrics.localSource ∨
          s.metrics.stateSource = Metrics.remoteSource) := by
  have hs := h.counted
  have hzero : s.store.size = 0 ↔ s.metrics.stored = 0 := by
    constructor
    · intro hsize
      have hpos := hs.size_pos
      omega
    · intro hstored
      have hle := hs.size_le
      omega
  have hempty : s.store.size = 0 ↔ s.store = .empty := by
    constructor
    · intro hsize
      exact hs.empty (hzero.mp hsize)
    · intro heq
      rw [heq]
      rfl
  refine ⟨hs.tfvars, hs.size_le, hempty, ?_, hs.source⟩
  rw [hzero, Metrics.stored, Nat.add_eq_zero_iff]

def recounted : Session :=
  let fs := (FileSystem.empty []).write (text "a.tf") (Encoding.encode (text "a = 1\n"))
  replay (.standard .default)
    [⟨fs, .template (text "a.tf")⟩, ⟨fs, .template (text "*.tf")⟩,
      ⟨fs, .tfvars [text "a.tf", text "b.tf"]⟩] empty

theorem Reached.counters_on_sample :
    Reached recounted ∧
      (recounted.store.size = 1 ∧ recounted.metrics.templatesLoaded = 2) ∧
      recounted.tfvars.length = recounted.metrics.tfvarsLoaded ∧
      recounted.store.size ≤ recounted.metrics.templatesLoaded + recounted.metrics.moduleFilesLoaded ∧
      (recounted.store.size = 0 ↔ recounted.store = .empty) ∧
      (recounted.store.size = 0 ↔
        recounted.metrics.templatesLoaded = 0 ∧ recounted.metrics.moduleFilesLoaded = 0) ∧
      (recounted.metrics.stateLoaded = true →
        recounted.metrics.stateSource = Metrics.localSource ∨
          recounted.metrics.stateSource = Metrics.remoteSource) := by
  have hreached : Reached recounted := Reached.empty.replay _ _
  have hcounts : (recounted.store.size, recounted.metrics.templatesLoaded) = (1, 2) := by
    decide +kernel
  exact ⟨hreached, Prod.mk.inj hcounts, hreached.counters⟩

end Session

end Terraload
