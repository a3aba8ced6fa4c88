import Terraload.Proofs.Session.Change
/-!
A session has three concerns: templates and modules, deployment state, and variable overrides. A
call works on its own concern and looks at none of the others, so that the calls of one concern come
to the same however those of the others stand between them.
-/
namespace Terraload

inductive Concern
  | templates
  | state
  | overrides
  deriving DecidableEq

def Call.concern : Call → Concern
  | .template _ | .directory _ | .moduleFiles _ _ => .templates
  | .state => .state
  | .tfvars _ => .overrides

def Event.concern (e : Event) : Concern := e.call.concern

def Edit.concern : Edit → Concern
  | .template _ _ _ | .moduleFile _ _ _ => .templates
  | .stateMissed _ | .stateLoaded _ _ => .state
  | .tfvarsSkipped | .tfvarsLoaded _ => .overrides

theorem Edit.From.concern {config : Config} {fs : FileSystem} {c : Call} {e : Edit}
    (h : e.From config fs c) : e.concern = c.concern := by
  cases h with
  | template hc =>
    cases c with
    | template p => rfl
    | directory d => rfl
    | moduleFiles key source => cases hc
    | state => cases hc
    | tfvars paths => cases hc
  | moduleFile => rfl
  | stateMissed => rfl
  | stateLoaded => rfl
  | tfvarsSkipped => rfl
  | tfvarsLoaded => rfl

namespace Session

variable {config : Config} {g : Concern} {s t : Session}

def focus (g : Concern) (s : Session) : Session :=
  match g with
  | .templates =>
    { empty with
      store := s.store
      metrics := { Metrics.zero with
        templatesLoaded := s.metrics.templatesLoaded
        moduleFilesLoaded := s.metrics.moduleFilesLoaded } }
  | .state =>
    { empty with
      state := s.state
      metrics := { Metrics.zero with
        stateSource := s.metrics.stateSource
        stateLoaded := s.metrics.stateLoaded } }
  | .overrides =>
    { empty with
      tfvars := s.tfvars
      metrics := { Metrics.zero with
        tfvarsLoaded := s.metrics.tfvarsLoaded
        tfvarsSkipped := s.metrics.tfvarsSkipped } }

/-- The three parts make up the session. -/
theorem ext_focus (h : ∀ g, s.focus g = t.focus g) : s = t := by
  have htemplates := h .templates
  have hstate := h .state
  have hoverrides := h .overrides
  obtain ⟨store, state, tfvars, metrics⟩ := s
  obtain ⟨store', state', tfvars', metrics'⟩ := t
  cases metrics
  cases metrics'
  simp only [focus, mk.injEq, Metrics.mk.injEq, true_and, and_true] at htemplates hstate hoverrides
  obtain ⟨rfl, rfl, rfl⟩ := htemplates
  obtain ⟨rfl, rfl, rfl⟩ := hstate
  obtain ⟨rfl, rfl, rfl⟩ := hoverrides
  rfl

/-- An edit changes the part of its own concern, out of that part alone. -/
theorem focus_apply (g : Concern) (e : Edit) (s : Session) :
    (e.apply s).focus g = if e.concern = g then e.apply (s.focus g) else s.focus g := by
  cases e <;> cases g <;> rfl

theorem focus_edits {edits : List Edit} {concern : Concern} (h : ∀ e ∈ edits, e.concern = concern)
    (g : Concern) (s : Session) : (edits.foldl Edit.apply s).focus g =
      if concern = g then edits.foldl Edit.apply (s.focus g) else s.focus g := by
  induction edits generalizing s with
  | nil => simp
  | cons e edits ih =>
    have he := h e (by simp)
    have ih := ih fun e he => h e (by simp [he])
    simp only [List.foldl_cons, ih, focus_apply, he]
    split <;> rfl

theorem focus_run (g : Concern) (fs : FileSystem) (c : Call) (s : Session) :
    (c.run config fs s).session.focus g =
      if c.concern = g then (c.run config fs (s.focus g)).session else s.focus g := by
  obtain ⟨edits, log, failure, hrun, hedits⟩ := makes_run config fs c
  have hstep (s : Session) : c.run config fs s = ⟨edits.foldl Edit.apply s, log, failure⟩ := hrun s
  rw [hstep, hstep]
  exact focus_edits (fun e he => (hedits e he).concern) g s

/-- What a history makes of a part is what the calls of its concern make of it. -/
theorem focus_replay (g : Concern) (history : List Event) (s : Session) :
    (replay config history s).focus g =
      replay config (history.filter fun e => e.concern = g) (s.focus g) := by
  induction history generalizing s with
  | nil => rfl
  | cons e es ih =>
    by_cases he : e.concern = g
    · rw [List.filter_cons_of_pos (by simpa using he), replay, replay, ih, focus_run]
      exact congrArg (replay config _) (if_pos he)
    · rw [List.filter_cons_of_neg (by simpa using he), replay, ih, focus_run]
      exact congrArg (replay config _) (if_neg he)

structure Ending where
  call : Call
  log : List LogEntry
  failure : Option Failure

def endingOf (config : Config) (s : Session) (e : Event) : Ending :=
  let step := e.call.run config e.files s
  ⟨e.call, step.log, step.failure⟩

def endings (config : Config) : List Event → Session → List Ending
  | [], _ => []
  | e :: es, s =>
    endingOf config s e :: endings config es (e.call.run config e.files s).session

/-- How a call ends does not depend on the session. -/
theorem endingOf_eq (config : Config) (s t : Session) (e : Event) :
    endingOf config s e = endingOf config t e := by
  obtain ⟨edits, log, failure, hrun, -⟩ := makes_run config e.files e.call
  have hstep (s : Session) : e.call.run config e.files s =
    ⟨edits.foldl Edit.apply s, log, failure⟩ := hrun s
  simp only [endingOf, hstep]

theorem endings_eq_map (config : Config) (history : List Event) (s : Session) :
    endings config history s = history.map (endingOf config empty) := by
  induction history generalizing s with
  | nil => rfl
  | cons e es ih => rw [endings, ih, endingOf_eq config s empty, List.map_cons]

theorem filter_endings (g : Concern) (history : List Event) (s : Session) :
    (endings config history s).filter (fun e => e.call.concern = g) =
      (history.filter fun e => e.concern = g).map (endingOf config empty) := by
  rw [endings_eq_map, List.filter_map]
  rfl

/-- Two histories that agree on the calls of each concern, in their order and with the files that
each call finds, lead to the same session, and each call ends in the same way in both. -/
theorem interleaving_irrelevant (config : Config) (s : Session) {xs ys : List Event}
    (h : ∀ g, xs.filter (fun e => e.concern = g) = ys.filter fun e => e.concern = g) :
    replay config xs s = replay config ys s ∧
      ∀ g, (endings config xs s).filter (fun e => e.call.concern = g) =
        (endings config ys s).filter fun e => e.call.concern = g := by
  constructor
  · refine ext_focus fun g => ?_
    rw [focus_replay, focus_replay, h g]
  · intro g
    rw [filter_endings, filter_endings, h g]

def sampleFiles : FileSystem :=
  (((FileSystem.empty []).write (text "a.tf") (Encoding.encode (text "a = 1\n"))).write
    (text "b.tf") (Encoding.encode (text "b = \n"))).write
      (text "x.tfvars") (Encoding.encode (text "x = true\n"))

def sampleHistory : List Event :=
  [⟨sampleFiles, .tfvars [text "x.tfvars"]⟩, ⟨sampleFiles, .template (text "*.tf")⟩,
    ⟨sampleFiles, .state⟩, ⟨sampleFiles, .moduleFiles (text "m") (text "source")⟩,
    ⟨sampleFiles, .tfvars [text "y.tfvars"]⟩]

def sampleRearranged : List Event :=
  [⟨sampleFiles, .state⟩, ⟨sampleFiles, .template (text "*.tf")⟩,
    ⟨sampleFiles, .moduleFiles (text "m") (text "source")⟩, ⟨sampleFiles, .tfvars [text "x.tfvars"]⟩,
    ⟨sampleFiles, .tfvars [text "y.tfvars"]⟩]

theorem interleaving_irrelevant_on_sample :
    (∀ g, sampleHistory.filter (fun e => e.concern = g) =
        sampleRearranged.filter fun e => e.concern = g) ∧
      replay (.standard .default) sampleHistory empty =
        replay (.standard .default) sampleRearranged empty ∧
      ∀ g, (endings (.standard .default) sampleHistory empty).filter (fun e => e.call.concern = g) =
        (endings (.standard .default) sampleRearranged empty).filter fun e => e.call.concern = g := by
  have h : ∀ g, sampleHistory.filter (fun e => e.concern = g) =
      sampleRearranged.filter fun e => e.concern = g := by
    intro g
    cases g <;> rfl
  exact ⟨h, interleaving_irrelevant _ _ h⟩

end Session

end Terraload
