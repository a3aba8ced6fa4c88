import Terraload.Proofs.Command.Loading
/-!
Two verdicts on whether there is state: the mark that loading leaves, and the comparison with the
zero value. They differ where the state that was loaded is the zero value itself, and nowhere else.
-/
namespace Terraload

namespace Summary

/-- The line on state ends a summary for reading. -/
theorem getLast?_lines (s : Summary) : s.lines.getLast? = some s.stateLine := by
  rw [lines, List.getLast?_append]
  rfl

theorem stateLine_eq_iff (s : Summary) :
    s.stateLine = text "State: none" ↔ s.stateLoaded = false := by
  cases hs : s.stateLoaded with
  | false => simp [stateLine, hs]
  | true =>
    simp only [stateLine, hs, if_true]
    refine iff_of_false (fun h => ?_) Bool.noConfusion
    have hhead := congrArg (fun t => t[7]?) h
    simp [text, Text.ofChars] at hhead

end Summary

open Session

/-- The verdict of a session says whether the last state it took in differs from the zero value. The
verdict of a run, in either form of its summary, says the same of the state it took in, while its
mark says that it took in any. -/
theorem loaded_verdicts (config : Config) (history : List Event) {s : Surroundings}
    {arguments : List Text} {o : LoadOptions} (hread : Command.read arguments = .ok (.load o))
    (hcode : (Command.run s arguments).code = 0) :
    ((replay config history empty).state.isEmpty = false ↔
      ∃ state, (statesFound config history).getLast? = some state ∧ state ≠ State.empty) ∧
    ∃ settings, Settings.load s.files s.environment [] = .ok (.passed settings) ∧
      let summary := Summary.ofSession (o.session settings s.files)
      let found := foundState? (Config.standard settings) s.files
      (if o.json then summary.json?.map (fun t => unlines [t]) else some (unlines summary.lines)) =
        some (Command.run s arguments).output ∧
      (summary.metrics.stateLoaded = true ↔ o.loadState = true ∧ found.isSome = true) ∧
      (summary.stateLoaded = true ↔
        o.loadState = true ∧ ∃ state, found = some state ∧ state ≠ State.empty) ∧
      (summary.lines.getLast? = some (text "State: none") ↔ summary.stateLoaded = false) := by
  refine ⟨isEmpty_replay config history, ?_⟩
  have hrun : Command.run s arguments = o.run s := by simp only [Command.run, hread]
  rw [hrun] at hcode ⊢
  obtain ⟨settings, log, output, hload, hprinted, hend⟩ := LoadOptions.run_of_code hcode
  refine ⟨settings, hload, ?_, ?_, ?_, ?_⟩
  · rw [hend]
    simp only [LoadOptions.printed] at hprinted
    split at hprinted
    · rename_i hjson
      rw [if_pos hjson]
      split at hprinted <;> simp_all
    · rename_i hjson
      rw [if_neg hjson]
      exact congrArg some (Except.ok.inj hprinted)
  · have hmark := LoadOptions.stateLoaded_session (o := o) settings s.files
    simp only [Summary.ofSession, hmark, Bool.and_eq_true]
  · simp only [Summary.ofSession, LoadOptions.state_session, Bool.not_eq_true', ← Bool.not_eq_true,
      State.isEmpty_iff]
    cases o.loadState <;> cases foundState? (Config.standard settings) s.files <;> simp
  · rw [Summary.getLast?_lines, Option.some.injEq, Summary.stateLine_eq_iff]

def silentState : Surroundings where
  files := (FileSystem.empty []).write (text "terraform.tfstate") (Encoding.encode (text "\x7b\x7d"))
  environment := []
  time := []
  session := []

def silentOptions : LoadOptions := ⟨text ".", [], [], true, false, false, false⟩

theorem read_silent : Command.read [text "load"] = .ok (.load silentOptions) := rfl

theorem run_silent : (Command.run silentState [text "load"]).code = 0 := by
  decide +kernel

theorem foundState?_silent : foundState? (.standard .default) silentState.files = some State.empty := by
  have h : (foundState? (.standard .default) silentState.files).map State.isEmpty = some true := by
    decide +kernel
  obtain ⟨state, hfound, hempty⟩ := Option.map_eq_some_iff.mp h
  rw [hfound, (State.isEmpty_iff state).mp hempty]

theorem loaded_verdicts_on_silent_state :
    let history : List Event := [⟨silentState.files, .state⟩, ⟨FileSystem.empty [], .state⟩]
    Command.read [text "load"] = .ok (.load silentOptions) ∧
      (Command.run silentState [text "load"]).code = 0 ∧
      ((replay (.standard .default) history empty).state.isEmpty = false ↔
        ∃ state, (statesFound (.standard .default) history).getLast? = some state ∧
          state ≠ State.empty) ∧
      ∃ settings, Settings.load silentState.files silentState.environment [] =
          .ok (.passed settings) ∧
        let summary := Summary.ofSession (silentOptions.session settings silentState.files)
        let found := foundState? (Config.standard settings) silentState.files
        (if silentOptions.json then summary.json?.map (fun t => unlines [t])
          else some (unlines summary.lines)) = some (Command.run silentState [text "load"]).output ∧
        (summary.metrics.stateLoaded = true ↔
          silentOptions.loadState = true ∧ found.isSome = true) ∧
        (summary.stateLoaded = true ↔
          silentOptions.loadState = true ∧ ∃ state, found = some state ∧ state ≠ State.empty) ∧
        (summary.lines.getLast? = some (text "State: none") ↔ summary.stateLoaded = false) :=
  ⟨read_silent, run_silent, loaded_verdicts _ _ read_silent run_silent⟩

/-- Where such a file is loaded, the mark says that there is state, and the comparison that there is
none. -/
theorem loaded_state_called_none :
    let session := silentOptions.session .default silentState.files
    let summary := Summary.ofSession session
    Settings.load silentState.files silentState.environment [] = .ok (.passed .default) ∧
      foundState? (.standard .default) silentState.files = some State.empty ∧
      session.state.isEmpty = true ∧ summary.metrics.stateLoaded = true ∧
      summary.stateLoaded = false ∧ summary.lines.getLast? = some (text "State: none") := by
  have hstate : (silentOptions.session .default silentState.files).state = State.empty := by
    rw [LoadOptions.state_session, foundState?_silent]
    rfl
  have hmark :
      (silentOptions.session .default silentState.files).metrics.stateLoaded = true := by
    rw [LoadOptions.stateLoaded_session, foundState?_silent]
    rfl
  have hempty : (silentOptions.session .default silentState.files).state.isEmpty = true :=
    (State.isEmpty_iff _).mpr hstate
  have hloaded : (Summary.ofSession
      (silentOptions.session .default silentState.files)).stateLoaded = false := by
    simp only [Summary.ofSession, hempty, Bool.not_true]
  refine ⟨rfl, foundState?_silent, hempty, hmark, hloaded, ?_⟩
  rw [Summary.getLast?_lines, Summary.stateLine_eq_iff _ |>.mpr hloaded]

end Terraload
