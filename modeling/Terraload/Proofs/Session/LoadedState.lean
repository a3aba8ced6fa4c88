import Terraload.Proofs.Session.Independence
/-!
The state of a session is the last one that was taken in from a file, and the zero value before
that. Two things tell whether there is one: the mark that loading leaves, and whether the state
differs from the zero value.
-/
namespace Terraload

theorem State.isEmpty_iff (s : State) : s.isEmpty = true ↔ s = State.empty := by
  obtain ⟨version, terraformVersion, serial, lineage, remote, backend, modules⟩ := s
  simp [State.isEmpty, State.empty, List.isEmpty_iff, and_assoc]

namespace Session

def foundState? (config : Config) (fs : FileSystem) : Option State :=
  match readEnvironment config.settings fs with
  | .error _ => none
  | .ok environment =>
    match stateSource? config.settings fs (localStatePath config.settings environment) with
    | none => none
    | some (path, _) =>
      match fs.read path with
      | .error _ => none
      | .ok bytes =>
        match State.decode bytes with
        | .failed _ => none
        | .passed state => some state

def statesFound (config : Config) (history : List Event) : List State :=
  history.filterMap fun e =>
    match e.call with
    | .state => foundState? config e.files
    | _ => none

variable {config : Config} {fs : FileSystem}

/-- A state that is found was decoded from the bytes of a file. -/
theorem decode_of_foundState? {state : State} (h : foundState? config fs = some state) :
    ∃ bytes, State.decode bytes = .passed state := by
  unfold foundState? at h
  split at h
  · cases h
  split at h
  · cases h
  split at h
  · cases h
  rename_i bytes _
  split at h
  · cases h
  rename_i hdecode
  exact ⟨bytes, Option.some.inj h ▸ hdecode⟩

def sourceNames : List Text := [Metrics.localSource, Metrics.remoteSource, Metrics.noSource]

theorem mem_sourceNames {settings : Settings} {localPath path source : Text}
    (h : stateSource? settings fs localPath = some (path, source)) : source ∈ sourceNames := by
  obtain rfl | rfl := stateSource?_source h
  · exact List.mem_cons_self
  · exact List.mem_cons_of_mem _ List.mem_cons_self

/-- Loading state takes in the state that is found. Where none is found it leaves the state that is
there, and records that, unless it breaks off. -/
theorem loadState_cases (config : Config) (fs : FileSystem) :
    (∃ source ∈ sourceNames, ∃ state log, foundState? config fs = some state ∧
      ∀ s, loadState config fs s = ⟨(Edit.stateLoaded source state).apply s, log, none⟩) ∨
    (foundState? config fs = none ∧ ∃ source ∈ sourceNames, ∃ log,
      ∀ s, loadState config fs s = ⟨(Edit.stateMissed source).apply s, log, none⟩) ∨
    (foundState? config fs = none ∧ ∃ f log, ∀ s, loadState config fs s = ⟨s, log, some f⟩) := by
  cases henv : readEnvironment config.settings fs with
  | error f =>
    have hfound : foundState? config fs = none := by simp only [foundState?, henv]
    exact .inr (.inr ⟨hfound, f, _, fun s => by simp only [loadState, henv]; rfl⟩)
  | ok environment =>
    cases hsource : stateSource? config.settings fs
        (localStatePath config.settings environment) with
    | none =>
      have hfound : foundState? config fs = none := by simp only [foundState?, henv, hsource]
      exact .inr (.inl ⟨hfound, Metrics.noSource, by simp [sourceNames], _, fun s => by
        simp only [loadState, henv, hsource]; rfl⟩)
    | some found =>
      obtain ⟨path, source⟩ := found
      have hname := mem_sourceNames hsource
      cases hread : fs.read path with
      | error f =>
        have hfound : foundState? config fs = none := by
          simp only [foundState?, henv, hsource, hread]
        cases f with
        | system e =>
          exact .inr (.inl ⟨hfound, source, hname, _, fun s => by
            simp only [loadState, henv, hsource, readState, hread, Step.after]; rfl⟩)
        | _ =>
          exact .inr (.inr ⟨hfound, _, _, fun s => by
            simp only [loadState, henv, hsource, readState, hread, Step.after]; rfl⟩)
      | ok bytes =>
        cases hdecode : State.decode bytes with
        | failed ps =>
          have hfound : foundState? config fs = none := by
            simp only [foundState?, henv, hsource, hread, hdecode]
          exact .inr (.inl ⟨hfound, source, hname, _, fun s => by
            simp only [loadState, henv, hsource, readState, hread, hdecode, Step.after]; rfl⟩)
        | passed state =>
          have hfound : foundState? config fs = some state := by
            simp only [foundState?, henv, hsource, hread, hdecode]
          exact .inl ⟨source, hname, state, _, hfound, fun s => by
            simp only [loadState, henv, hsource, readState, hread, hdecode, Step.after]; rfl⟩

/-- The calls of other concerns leave the state and its mark as they are. -/
theorem state_run_of_ne {c : Call} (hc : c.concern ≠ .state) (s : Session) :
    (c.run config fs s).session.state = s.state ∧
      (c.run config fs s).session.metrics.stateLoaded = s.metrics.stateLoaded := by
  have hfocus : (c.run config fs s).session.focus .state = s.focus .state := by
    rw [focus_run, if_neg hc]
  have hstate := congrArg Session.state hfocus
  have hloaded := congrArg (·.metrics.stateLoaded) hfocus
  exact ⟨hstate, hloaded⟩

theorem state_loadState (s : Session) :
    (loadState config fs s).session.state = (foundState? config fs).getD s.state := by
  obtain ⟨source, -, state, log, hfound, h⟩ | ⟨hfound, source, -, log, h⟩ | ⟨hfound, f, log, h⟩ :=
    loadState_cases config fs
  all_goals
    rw [h, hfound]
    rfl

theorem stateLoaded_loadState {s : Session} (hs : s.metrics.stateLoaded = false) :
    (loadState config fs s).session.metrics.stateLoaded = (foundState? config fs).isSome := by
  obtain ⟨source, -, state, log, hfound, h⟩ | ⟨hfound, source, -, log, h⟩ | ⟨hfound, f, log, h⟩ :=
    loadState_cases config fs
  · rw [h, hfound]
    rfl
  · rw [h, hfound]
    rfl
  · rw [h, hfound]
    exact hs

theorem stateSource_loadState {s : Session} (hs : s.metrics.stateSource ∈ sourceNames) :
    (loadState config fs s).session.metrics.stateSource ∈ sourceNames := by
  obtain ⟨source, hname, state, log, -, h⟩ | ⟨-, source, hname, log, h⟩ | ⟨-, f, log, h⟩ :=
    loadState_cases config fs
  · rw [h]
    exact hname
  · rw [h]
    exact hname
  · rw [h]
    exact hs

theorem state_run (e : Event) (s : Session) :
    (e.call.run config e.files s).session.state =
      (statesFound config [e]).getLast?.getD s.state := by
  obtain ⟨fs, c⟩ := e
  cases c with
  | state =>
    refine (state_loadState s).trans ?_
    cases h : foundState? config fs <;> simp [statesFound, h]
  | _ => exact (state_run_of_ne (by simp [Call.concern]) s).1

theorem statesFound_append (xs ys : List Event) :
    statesFound config (xs ++ ys) = statesFound config xs ++ statesFound config ys :=
  List.filterMap_append

/-- The state of a session is the last one that was taken in. -/
theorem state_replay (config : Config) (history : List Event) (s : Session) :
    (replay config history s).state = (statesFound config history).getLast?.getD s.state := by
  induction history generalizing s with
  | nil => rfl
  | cons e es ih =>
    have hfound : statesFound config (e :: es) =
        statesFound config [e] ++ statesFound config es := statesFound_append [e] es
    rw [replay, ih, state_run, hfound, List.getLast?_append]
    cases (statesFound config es).getLast? <;> rfl

/-- The state of a session differs from the zero value exactly if a state was taken in and the last
one does. -/
theorem isEmpty_replay (config : Config) (history : List Event) :
    (replay config history empty).state.isEmpty = false ↔
      ∃ state, (statesFound config history).getLast? = some state ∧ state ≠ State.empty := by
  rw [state_replay, ← Bool.not_eq_true, State.isEmpty_iff]
  cases (statesFound config history).getLast? with
  | none => simp [empty]
  | some state => simp

end Session

end Terraload
