import Terraload.Proofs.FileSystem.Cleaning
import Terraload.Proofs.Session.Edit
/-!
Where state is read from. What the environment file says settles the local candidate. The candidate
is the source if it is there, readable or not, and otherwise the remote file is; what is loaded is
the state that the bytes of the source hold, and nothing in its place.
-/
namespace Terraload.Session

variable {settings : Settings} {config : Config} {fs : FileSystem} {e path source : Text}

def EnvironmentText (settings : Settings) (fs : FileSystem) (e : Text) : Prop :=
  ∃ bytes cs, fs.read settings.environmentFile = .ok bytes ∧
    Encoding.decodeUtf8 bytes = .ok cs ∧ e = Text.ofChars (stripChars (unifyLineEnds cs))

structure NamesWorkspace (settings : Settings) (fs : FileSystem) (e : Text) : Prop where
  named : EnvironmentText settings fs e
  ne_nil : e ≠ []
  ne_default : e ≠ defaultEnvironment

inductive Candidate (settings : Settings) (fs : FileSystem) : Text → Prop
  | workspace {e : Text} (h : NamesWorkspace settings fs e) :
      Candidate settings fs (settings.workspaceStatePath e)
  | default (h : ∀ e, ¬ NamesWorkspace settings fs e) : Candidate settings fs settings.localStatePath

/-- The file that state is read from, if there is one, and the name of the source. Whether the file
can be read has no say in it. -/
inductive StateSource (settings : Settings) (fs : FileSystem) : Option Text → Text → Prop
  | near {path : Text} (h : Candidate settings fs path) (there : fs.exists? path = true) :
      StateSource settings fs (some path) Metrics.localSource
  | remote {path : Text} (h : Candidate settings fs path) (missing : fs.exists? path = false)
      (there : fs.exists? settings.remoteStatePath = true) :
      StateSource settings fs (some settings.remoteStatePath) Metrics.remoteSource
  | nowhere {path : Text} (h : Candidate settings fs path) (missing : fs.exists? path = false)
      (neither : fs.exists? settings.remoteStatePath = false) :
      StateSource settings fs none Metrics.noSource

theorem EnvironmentText.unique {e' : Text} (h : EnvironmentText settings fs e)
    (h' : EnvironmentText settings fs e') : e = e' := by
  obtain ⟨bytes, cs, hread, hdecode, rfl⟩ := h
  obtain ⟨bytes', cs', hread', hdecode', rfl⟩ := h'
  cases hread.symm.trans hread'
  cases hdecode.symm.trans hdecode'
  rfl

theorem Candidate.unique {path' : Text} (h : Candidate settings fs path)
    (h' : Candidate settings fs path') : path = path' := by
  cases h with
  | workspace hnames =>
    cases h' with
    | workspace hnames' => rw [hnames.named.unique hnames'.named]
    | default hnone => exact absurd hnames (hnone _)
  | default hnone =>
    cases h' with
    | workspace hnames => exact absurd hnames (hnone _)
    | default => rfl

/-- There is one source at most. -/
theorem StateSource.unique {path? path?' : Option Text} {source' : Text}
    (h : StateSource settings fs path? source) (h' : StateSource settings fs path?' source') :
    path? = path?' ∧ source = source' := by
  have hpath {p p' : Text} (hp : Candidate settings fs p) (hp' : Candidate settings fs p') :
      fs.exists? p = fs.exists? p' := by rw [hp.unique hp']
  cases h with
  | near hp there =>
    cases h' with
    | near hp' => exact ⟨congrArg some (hp.unique hp'), rfl⟩
    | remote hp' missing | nowhere hp' missing =>
      exact Bool.noConfusion (there.symm.trans ((hpath hp hp').trans missing))
  | remote hp missing there =>
    cases h' with
    | near hp' there => exact Bool.noConfusion (missing.symm.trans ((hpath hp hp').trans there))
    | remote => exact ⟨rfl, rfl⟩
    | nowhere _ _ neither => exact Bool.noConfusion (there.symm.trans neither)
  | nowhere hp missing neither =>
    cases h' with
    | near hp' there => exact Bool.noConfusion (missing.symm.trans ((hpath hp hp').trans there))
    | remote _ _ there => exact Bool.noConfusion (neither.symm.trans there)
    | nowhere => exact ⟨rfl, rfl⟩

theorem EnvironmentText.readEnvironment (h : EnvironmentText settings fs e) :
    readEnvironment settings fs = .ok (.ok e) := by
  obtain ⟨bytes, cs, hread, hdecode, rfl⟩ := h
  simp only [Session.readEnvironment, hread, hdecode]

theorem environmentText_iff {environment : Except Text Text}
    (h : readEnvironment settings fs = .ok environment) :
    EnvironmentText settings fs e ↔ environment = .ok e := by
  constructor
  · intro hnamed
    rw [hnamed.readEnvironment] at h
    exact (Except.ok.inj h).symm
  · rintro rfl
    simp only [readEnvironment] at h
    split at h
    · cases h
    · cases h
    next bytes hread =>
      split at h
      · cases h
      next cs hdecode =>
        cases h
        exact ⟨bytes, cs, hread, hdecode, rfl⟩

theorem NamesWorkspace.localStatePath (h : NamesWorkspace settings fs e) :
    localStatePath settings (.ok e) = settings.workspaceStatePath e := by
  simp [Session.localStatePath, h.ne_nil, h.ne_default]

theorem candidate_localStatePath {environment : Except Text Text}
    (h : readEnvironment settings fs = .ok environment) :
    Candidate settings fs (localStatePath settings environment) := by
  cases environment with
  | error m =>
    refine .default fun e hnames => ?_
    cases (environmentText_iff h).mp hnames.named
  | ok e =>
    have hnamed : EnvironmentText settings fs e := (environmentText_iff h).mpr rfl
    by_cases hown : e ≠ [] ∧ e ≠ defaultEnvironment
    · have hnames : NamesWorkspace settings fs e := ⟨hnamed, hown.1, hown.2⟩
      rw [hnames.localStatePath]
      exact .workspace hnames
    · have hpath : localStatePath settings (.ok e) = settings.localStatePath := by
        rw [not_and_or, not_not, not_not] at hown
        simp [localStatePath, hown]
      rw [hpath]
      refine .default fun e' hnames => hown ?_
      rw [hnamed.unique hnames.named]
      exact ⟨hnames.ne_nil, hnames.ne_default⟩

theorem stateSource?_some (h : Candidate settings fs path) {found : Text}
    (hfound : stateSource? settings fs path = some (found, source)) :
    StateSource settings fs (some found) source ∧ fs.exists? found = true := by
  simp only [stateSource?] at hfound
  split at hfound
  next there =>
    cases hfound
    exact ⟨.near h there, there⟩
  next missing =>
    split at hfound
    next there =>
      cases hfound
      exact ⟨.remote h (Bool.eq_false_iff.mpr missing) there, there⟩
    · cases hfound

theorem stateSource?_none (h : Candidate settings fs path)
    (hnone : stateSource? settings fs path = none) :
    StateSource settings fs none Metrics.noSource := by
  simp only [stateSource?] at hnone
  split at hnone
  · cases hnone
  next missing =>
    split at hnone
    · cases hnone
    next neither => exact .nowhere h (Bool.eq_false_iff.mpr missing) (Bool.eq_false_iff.mpr neither)

def HoldsState (fs : FileSystem) (path : Text) (state : State) : Prop :=
  ∃ bytes, fs.read path = .ok bytes ∧ State.decode bytes = .passed state

/-- A file that is there gives the state it holds, or is recorded as one that holds none. -/
theorem readState_cases (there : fs.exists? path = true) (source : Text) :
    (∃ state log, HoldsState fs path state ∧
      ∀ s, readState fs path source s = ⟨(Edit.stateLoaded source state).apply s, log, none⟩) ∨
    ((∀ state, ¬ HoldsState fs path state) ∧ ∃ log,
      ∀ s, readState fs path source s = ⟨(Edit.stateMissed source).apply s, log, none⟩) := by
  cases hread : fs.read path with
  | error f =>
    obtain ⟨e, rfl⟩ := FileSystem.system_of_exists? there hread
    refine .inr ⟨?_, _, fun s => by simp only [readState, hread]; rfl⟩
    rintro state ⟨bytes, hbytes, -⟩
    cases hread.symm.trans hbytes
  | ok bytes =>
    cases hdecode : State.decode bytes with
    | failed ps =>
      refine .inr ⟨?_, _, fun s => by simp only [readState, hread, hdecode]; rfl⟩
      rintro state ⟨bytes', hbytes, hstate⟩
      cases hread.symm.trans hbytes
      cases hdecode.symm.trans hstate
    | passed state =>
      exact .inl ⟨state, _, ⟨bytes, hread, hdecode⟩, fun s => by
        simp only [readState, hread, hdecode]; rfl⟩

/-- Loading state comes to an end where the environment file can be read, or the system says why it
cannot. -/
theorem failure_loadState {environment : Except Text Text}
    (henv : readEnvironment config.settings fs = .ok environment) (s : Session) :
    (s.loadState config fs).failure = none := by
  cases hfound : stateSource? config.settings fs
      (localStatePath config.settings environment) with
  | none => simp only [loadState, henv, hfound]
  | some found =>
    obtain ⟨path, source⟩ := found
    have there := (stateSource?_some (candidate_localStatePath henv) hfound).2
    obtain ⟨state, log, -, hrun⟩ | ⟨-, log, hrun⟩ := readState_cases there source
    all_goals simp only [loadState, henv, hfound, hrun, Step.after]

/-- Whenever loading state comes to an end, there is exactly one source. The session then has the
state that the source holds and nothing of the one before, marked as loaded, or, exactly if the source
holds no state, the very state it had. The source is named, and all else stays as it was. -/
theorem loadState_takes_source (s : Session) (h : (s.loadState config fs).failure = none) :
    ∃ path? source, StateSource config.settings fs path? source ∧
      (∀ path?' source', StateSource config.settings fs path?' source' →
        path?' = path? ∧ source' = source) ∧
      ((∃ path state, path? = some path ∧ HoldsState fs path state ∧
          (s.loadState config fs).session =
            { s with
              state := state
              metrics := { s.metrics with stateSource := source, stateLoaded := true } }) ∨
        ((∀ path state, path? = some path → ¬ HoldsState fs path state) ∧
          (s.loadState config fs).session =
            { s with
              metrics := { s.metrics with stateSource := source, stateLoaded := false } })) := by
  cases henv : readEnvironment config.settings fs with
  | error f =>
    simp only [loadState, henv] at h
    cases h
  | ok environment =>
    have hcandidate := candidate_localStatePath henv
    cases hfound : stateSource? config.settings fs
        (localStatePath config.settings environment) with
    | none =>
      have hsource := stateSource?_none hcandidate hfound
      have hno (path : Text) (state : State) (hpath : none = some path) :
          ¬ HoldsState fs path state := absurd hpath.symm (Option.some_ne_none path)
      refine ⟨none, _, hsource, fun _ _ h' => h'.unique hsource, .inr ⟨hno, ?_⟩⟩
      simp only [loadState, henv, hfound]
      rfl
    | some found =>
      obtain ⟨path, source⟩ := found
      obtain ⟨hsource, there⟩ := stateSource?_some hcandidate hfound
      refine ⟨some path, source, hsource, fun _ _ h' => h'.unique hsource, ?_⟩
      obtain ⟨state, log, hholds, hrun⟩ | ⟨hnone, log, hrun⟩ := readState_cases there source
      · refine .inl ⟨path, state, rfl, hholds, ?_⟩
        simp only [loadState, henv, hfound, hrun, Step.after]
        rfl
      · refine .inr ⟨fun path' state hpath => Option.some.inj hpath ▸ hnone state, ?_⟩
        simp only [loadState, henv, hfound, hrun, Step.after]
        rfl

def stagingFiles : FileSystem :=
  (((FileSystem.empty []).write (text ".terraform/environment")
      (Encoding.encode (text "\n staging\r\n"))).write
    (text "terraform.tfstate.d/staging/terraform.tfstate") (Encoding.encode (text "no state"))).write
    (text ".terraform/terraform.tfstate") (Encoding.encode (text "\x7b\x7d"))

def serialThree : Session := { empty with state := { State.empty with serial := 3 } }

def stagingPath : Text := text "terraform.tfstate.d/staging/terraform.tfstate"

theorem stagingFiles_source :
    readEnvironment .default stagingFiles = .ok (.ok (text "staging")) ∧
      stateSource? .default stagingFiles stagingPath = some (stagingPath, Metrics.localSource) ∧
      stagingFiles.read stagingPath = .ok (Encoding.encode (text "no state")) := by
  refine ⟨?_, ?_, ?_⟩ <;> decide +kernel

theorem loadState_takes_source_of_workspace :
    let config := Config.standard .default
    let step := serialThree.loadState config stagingFiles
    (step.failure, step.session.metrics.stateSource) = (none, Metrics.localSource) ∧
    ∃ path? source, StateSource config.settings stagingFiles path? source ∧
      (∀ path?' source', StateSource config.settings stagingFiles path?' source' →
        path?' = path? ∧ source' = source) ∧
      ((∃ path state, path? = some path ∧ HoldsState stagingFiles path state ∧
          step.session =
            { serialThree with
              state := state
              metrics := { serialThree.metrics with stateSource := source, stateLoaded := true } }) ∨
        ((∀ path state, path? = some path → ¬ HoldsState stagingFiles path state) ∧
          step.session =
            { serialThree with
              metrics :=
                { serialThree.metrics with stateSource := source, stateLoaded := false } })) := by
  intro config step
  obtain ⟨henv, hsource, hread⟩ := stagingFiles_source
  have hpath : localStatePath .default (.ok (text "staging")) = stagingPath := by decide
  have hstep : (step.failure, step.session.metrics.stateSource) = (none, Metrics.localSource) := by
    subst step config
    simp only [loadState, Config.standard, henv, hpath, hsource, readState, hread, Step.after]
    split <;> rfl
  exact ⟨hstep, loadState_takes_source serialThree (Prod.mk.inj hstep).1⟩

end Terraload.Session
