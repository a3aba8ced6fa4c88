import Mathlib.Logic.Relation
import Terraload.Proofs.Session.Edit
/-!
The changes a session can undergo, and histories of calls as rows of such changes. Whatever one
change keeps holds at the end of every history, however its calls end and whatever happens to the
files between them.
-/
namespace Terraload

structure Event where
  files : FileSystem
  call : Call

namespace Session

/-- The session after calls were made in order. A call that fails leaves what it has done. -/
def replay (config : Config) : List Event → Session → Session
  | [], s => s
  | e :: es, s => replay config es (e.call.run config e.files s).session

theorem replay_append {config : Config} (xs ys : List Event) (s : Session) :
    replay config (xs ++ ys) s = replay config ys (replay config xs s) := by
  induction xs generalizing s with
  | nil => rfl
  | cons e es ih => exact ih _

inductive Change (config : Config) : Session → Session → Prop
  | template {s : Session} {d : Document} {bytes : Bytes} (key : Text)
      (h : config.templateParser.parse bytes = .document d) :
      Change config s
        { s with store := s.store.put key d bytes, metrics := s.metrics.recordTemplate }
  | moduleFile {s : Session} {d : Document} {bytes : Bytes} (key : Text)
      (h : config.templateParser.parse bytes = .document d) :
      Change config s
        { s with store := s.store.put key d bytes, metrics := s.metrics.recordModuleFile }
  | stateMissed {s : Session} (source : Text) :
      Change config s { s with metrics := s.metrics.recordState source false }
  | stateLoaded {s : Session} {source : Text} (state : State)
      (h : source = Metrics.localSource ∨ source = Metrics.remoteSource) :
      Change config s { s with state := state, metrics := s.metrics.recordState source true }
  | tfvarsSkipped {s : Session} :
      Change config s { s with metrics := s.metrics.recordTfvarsSkipped }
  | tfvarsLoaded {s : Session} (d : Document) :
      Change config s
        { s with tfvars := s.tfvars ++ [d], metrics := s.metrics.recordTfvarsLoaded }

abbrev Changes (config : Config) : Session → Session → Prop :=
  Relation.ReflTransGen (Change config)

theorem Change.of_edit {config : Config} {fs : FileSystem} {c : Call} {e : Edit}
    (h : e.From config fs c) (s : Session) : Change config s (e.apply s) := by
  cases h with
  | template _ _ _ h => exact .template _ h.parse
  | moduleFile _ _ h => exact .moduleFile _ h.parse
  | stateMissed source => exact .stateMissed source
  | stateLoaded state hsource => exact .stateLoaded state hsource
  | tfvarsSkipped => exact .tfvarsSkipped
  | tfvarsLoaded _ d => exact .tfvarsLoaded d

theorem changes_of_edits {config : Config} {fs : FileSystem} {c : Call} {edits : List Edit}
    (h : ∀ e ∈ edits, e.From config fs c) (s : Session) :
    Changes config s (edits.foldl Edit.apply s) := by
  induction edits generalizing s with
  | nil => exact .refl
  | cons e edits ih =>
    exact .head (.of_edit (h e (by simp)) s) (ih (fun e he => h e (by simp [he])) _)

theorem run_changes (config : Config) (fs : FileSystem) (s : Session) (c : Call) :
    Changes config s (c.run config fs s).session := by
  obtain ⟨edits, log, failure, hrun, hedits⟩ := makes_run config fs c
  have hstep : c.run config fs s = ⟨edits.foldl Edit.apply s, log, failure⟩ := hrun s
  rw [hstep]
  exact changes_of_edits hedits s

theorem replay_changes (config : Config) (history : List Event) (s : Session) :
    Changes config s (replay config history s) := by
  induction history generalizing s with
  | nil => exact .refl
  | cons e es ih => exact (run_changes config e.files s e.call).trans (ih _)

/-- What every change keeps, every history keeps. -/
theorem replay_keeps {config : Config} {P : Session → Prop}
    (hchange : ∀ s t, Change config s t → P s → P t) (history : List Event) {s : Session}
    (h : P s) : P (replay config history s) := by
  have hs := replay_changes config history s
  generalize replay config history s = t at hs
  induction hs with
  | refl => exact h
  | tail _ hlast ih => exact hchange _ _ hlast ih

end Session

end Terraload
