import Terraload.Command.Run
import Terraload.Proofs.Session.LoadedState
/-!
A run that ends well: its settings hold, all its calls have succeeded, and what it prints is made of
the session behind them.
-/
namespace Terraload

/-- The session behind calls that all succeed. -/
theorem Call.session_runAll {config : Config} {fs : FileSystem} {calls : List Call} {s t : Session}
    {log : List LogEntry} (h : runAll config fs calls s = ⟨t, log, none⟩) :
    t = Session.replay config (calls.map (Event.mk fs)) s := by
  induction calls generalizing s t log with
  | nil =>
    cases h
    rfl
  | cons c cs ih =>
    cases hrun : c.run config fs s with
    | mk u first failure =>
      cases failure with
      | some f =>
        simp only [runAll, hrun] at h
        cases h
      | none =>
        simp only [runAll, hrun] at h
        cases hrest : runAll config fs cs u with
        | mk v rest failure =>
          rw [hrest] at h
          cases h
          rw [List.map_cons, Session.replay, hrun]
          exact ih hrest

namespace LoadOptions

variable {o : LoadOptions} {s : Surroundings}

def history (o : LoadOptions) (fs : FileSystem) : List Event :=
  (o.templateCalls ++ o.overlayCalls).map (Event.mk fs)

def session (o : LoadOptions) (settings : Settings) (fs : FileSystem) : Session :=
  Session.replay (Config.standard settings) (o.history fs) Session.empty

theorem code_of_reports (f : Failure) (log log' : List LogEntry) (j : Journal) :
    (if reports f then ⟨1, [], written j log ++ printedLines [f.render true], none⟩
      else ⟨1, [], written j log', some (.failed f)⟩ : Ending).code = 1 := by
  split <;> rfl

/-- The calls of a run that all succeed come to the session of the run. -/
theorem eq_session {settings : Settings} {t u : Session} {log more : List LogEntry}
    (htemplates : Call.runAll (.standard settings) s.files o.templateCalls .empty = ⟨t, log, none⟩)
    (hoverlays : Call.runAll (.standard settings) s.files o.overlayCalls t = ⟨u, more, none⟩) :
    u = o.session settings s.files := by
  rw [session, history, List.map_append, Session.replay_append, ← Call.session_runAll htemplates]
  exact Call.session_runAll hoverlays

theorem runWith_of_printed {settings : Settings} {t u : Session} {log more : List LogEntry}
    {output : Text}
    (htemplates : Call.runAll (.standard settings) s.files o.templateCalls .empty = ⟨t, log, none⟩)
    (hoverlays : Call.runAll (.standard settings) s.files o.overlayCalls t = ⟨u, more, none⟩)
    (hprinted : o.printed u = .ok output) :
    o.runWith settings s = ⟨0, output, written (o.journal settings s) (log ++ more), none⟩ := by
  simp only [runWith, htemplates, hoverlays, hprinted]

theorem runWith_of_code {settings : Settings} (h : (o.runWith settings s).code = 0) :
    ∃ log output, o.printed (o.session settings s.files) = .ok output ∧
      o.runWith settings s = ⟨0, output, log, none⟩ := by
  cases htemplates : Call.runAll (Config.standard settings) s.files o.templateCalls Session.empty with
  | mk first log failure =>
    cases failure with
    | some f =>
      simp only [runWith, htemplates] at h
      exact absurd ((code_of_reports f _ _ _).symm.trans h) Nat.one_ne_zero
    | none =>
      cases hoverlays : Call.runAll (Config.standard settings) s.files o.overlayCalls first with
      | mk last more failure =>
        cases failure with
        | some f =>
          simp only [runWith, htemplates, hoverlays] at h
          cases h
        | none =>
          have hlast : last = o.session settings s.files := eq_session htemplates hoverlays
          cases hprinted : o.printed last with
          | error f =>
            simp only [runWith, htemplates, hoverlays, hprinted] at h
            cases h
          | ok output =>
            rw [← hlast]
            exact ⟨_, output, hprinted, runWith_of_printed htemplates hoverlays hprinted⟩

/-- A run that ends well prints the session that it came to. -/
theorem run_of_code (h : (o.run s).code = 0) :
    ∃ settings log output, Settings.load s.files s.environment [] = .ok (.passed settings) ∧
      o.printed (o.session settings s.files) = .ok output ∧ o.run s = ⟨0, output, log, none⟩ := by
  unfold run at h ⊢
  cases hload : Settings.load s.files s.environment [] with
  | error p => simp only [hload] at h; cases h
  | ok verdict =>
    cases verdict with
    | failed ps => simp only [hload] at h; cases h
    | passed settings =>
      simp only [hload] at h
      obtain ⟨log, output, hprinted, hrun⟩ := runWith_of_code h
      exact ⟨settings, log, output, rfl, hprinted, hrun⟩

theorem concern_of_mem_templateCalls {c : Call} (h : c ∈ o.templateCalls) :
    c.concern = .templates := by
  obtain rfl | h := List.mem_cons.mp h
  · rfl
  · obtain ⟨m, -, rfl⟩ := List.mem_map.mp h
    rfl

/-- Of the calls of a run at most one works on state. -/
theorem filter_history (o : LoadOptions) (fs : FileSystem) :
    ((o.history fs).filter fun e => e.concern = .state) =
      if o.loadState then [⟨fs, .state⟩] else [] := by
  have htemplates : (o.templateCalls.map (Event.mk fs)).filter (fun e => e.concern = .state) = [] := by
    refine List.filter_eq_nil_iff.mpr fun e he => ?_
    obtain ⟨c, hc, rfl⟩ := List.mem_map.mp he
    simp [Event.concern, concern_of_mem_templateCalls hc]
  rw [history, List.map_append, List.filter_append, htemplates, overlayCalls]
  cases o.loadState <;> rfl

/-- The state of a run, and its mark, are those that loading state gives to the empty session. -/
theorem focus_session (settings : Settings) (fs : FileSystem) :
    (o.session settings fs).focus .state =
      if o.loadState then
        (Session.loadState (Config.standard settings) fs Session.empty).session.focus .state
      else Session.empty.focus .state := by
  rw [session, Session.focus_replay, filter_history]
  cases o.loadState with
  | false => rfl
  | true => exact (Session.focus_run .state fs .state Session.empty).symm

theorem state_session (settings : Settings) (fs : FileSystem) :
    (o.session settings fs).state =
      if o.loadState then (Session.foundState? (Config.standard settings) fs).getD State.empty
      else State.empty := by
  have hfocus : (o.session settings fs).state = ((o.session settings fs).focus .state).state := rfl
  rw [hfocus, focus_session]
  cases o.loadState with
  | false => rfl
  | true => exact Session.state_loadState Session.empty

/-- What holds of the empty state and of each that was decoded, holds of the state of a run. -/
theorem state_session_of {P : State → Prop} {settings : Settings} {fs : FileSystem}
    (hempty : P State.empty)
    (hdecoded : ∀ bytes state, State.decode bytes = .passed state → P state) :
    P (o.session settings fs).state := by
  rw [state_session]
  split
  · cases hfound : Session.foundState? (Config.standard settings) fs with
    | none => exact hempty
    | some state =>
      obtain ⟨bytes, hdecode⟩ := Session.decode_of_foundState? hfound
      exact hdecoded bytes state hdecode
  · exact hempty

theorem stateLoaded_session (settings : Settings) (fs : FileSystem) :
    (o.session settings fs).metrics.stateLoaded =
      (o.loadState && (Session.foundState? (Config.standard settings) fs).isSome) := by
  have hfocus : (o.session settings fs).metrics.stateLoaded =
    ((o.session settings fs).focus .state).metrics.stateLoaded := rfl
  rw [hfocus, focus_session]
  cases o.loadState with
  | false => rfl
  | true => exact Session.stateLoaded_loadState rfl

theorem stateSource_session (settings : Settings) (fs : FileSystem) :
    (o.session settings fs).metrics.stateSource ∈ Session.sourceNames := by
  have hfocus : (o.session settings fs).metrics.stateSource =
    ((o.session settings fs).focus .state).metrics.stateSource := rfl
  have hempty : Session.empty.metrics.stateSource ∈ Session.sourceNames := by
    simp [Session.sourceNames, Session.empty, Metrics.zero]
  rw [hfocus, focus_session]
  cases o.loadState with
  | false => exact hempty
  | true => exact Session.stateSource_loadState hempty

end LoadOptions

end Terraload
