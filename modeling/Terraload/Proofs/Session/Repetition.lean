import Terraload.Proofs.Members
import Terraload.Proofs.Session.Edit
/-!
A call that is made again, the files being as they were. It makes the same edits once more, and ends
as it did; the store and the state are then what they were, also where files share a key, so that
the earlier of them come back for a while, and where the call stops at a failure.
-/
namespace Terraload

namespace Edit

def stored? : Edit → Option (Text × Document × Bytes)
  | .template key d bytes | .moduleFile key d bytes => some (key, d, bytes)
  | .stateMissed _ | .stateLoaded _ _ | .tfvarsSkipped | .tfvarsLoaded _ => none

def state? : Edit → Option State
  | .stateLoaded _ state => some state
  | .template _ _ _ | .moduleFile _ _ _ | .stateMissed _ | .tfvarsSkipped | .tfvarsLoaded _ => none

end Edit

namespace Session

theorem store_edits (edits : List Edit) (s : Session) :
    (edits.foldl Edit.apply s).store =
      ⟨s.store.templates.putAll ((edits.filterMap Edit.stored?).map fun f => (f.1, f.2.1)),
        s.store.files.putAll ((edits.filterMap Edit.stored?).map fun f => (f.1, f.2.2))⟩ := by
  induction edits generalizing s with
  | nil => rfl
  | cons e edits ih =>
    rw [List.foldl_cons, ih]
    cases e <;> rfl

/-- The state after edits is the one that was loaded last, or the one before them. -/
theorem state_edits (edits : List Edit) (s : Session) :
    (edits.foldl Edit.apply s).state = (edits.filterMap Edit.state?).getLast?.getD s.state := by
  induction edits generalizing s with
  | nil => rfl
  | cons e edits ih =>
    rw [List.foldl_cons, ih]
    cases e with
    | stateLoaded source state => simp [Edit.state?, Edit.apply, List.getLast?_cons]
    | _ => rfl

/-- Edits that are made once more change neither the store nor the state. -/
theorem edits_again (edits : List Edit) (s : Session) :
    (edits.foldl Edit.apply (edits.foldl Edit.apply s)).store = (edits.foldl Edit.apply s).store ∧
      (edits.foldl Edit.apply (edits.foldl Edit.apply s)).state =
        (edits.foldl Edit.apply s).state := by
  constructor
  · rw [store_edits edits (edits.foldl Edit.apply s), store_edits edits s,
      Members.putAll_putAll, Members.putAll_putAll]
  · rw [state_edits edits (edits.foldl Edit.apply s), state_edits edits s]
    cases (edits.filterMap Edit.state?).getLast? <;> rfl

/-- A call that is made again on the session it has left, with the same files, ends as it did, with
the same failure if it failed, and leaves the store and the state as they are. -/
theorem run_again (config : Config) (fs : FileSystem) (s : Session) (c : Call) :
    let once := c.run config fs s
    let twice := c.run config fs once.session
    twice.failure = once.failure ∧ twice.log = once.log ∧
      twice.session.store = once.session.store ∧ twice.session.state = once.session.state := by
  intro once twice
  obtain ⟨edits, log, failure, hrun, -⟩ := makes_run config fs c
  have honce : once = ⟨edits.foldl Edit.apply s, log, failure⟩ := hrun s
  have htwice : twice = ⟨edits.foldl Edit.apply once.session, log, failure⟩ := hrun once.session
  rw [htwice, honce]
  obtain ⟨hstore, hstate⟩ := edits_again edits s
  exact ⟨rfl, rfl, hstore, hstate⟩

end Session

end Terraload
