import Terraload.Proofs.Members
import Terraload.Proofs.Session.Edit
import Terraload.Proofs.Text
/-!
The journal as a report. Where state and overrides are loaded, nothing but entries of level error
tells that a file was passed over; where templates and modules are loaded, such an entry goes with
each failure of the loader's own. The main statement says which entries of level error a call writes,
and that it writes one exactly where something went wrong.
-/
namespace Terraload

theorem LogEntry.get?_of (level : Level) (event : String) (name : String)
    (context : List (String × Value)) :
    Members.get? (text name) (LogEntry.of level event context).context = context.lookup name :=
  Members.get?_map_text name context

def LogEntry.Says (e : LogEntry) (event : String) (texts : List (String × Text)) : Prop :=
  e.event = text event ∧ ∀ m ∈ texts, Members.get? (text m.1) e.context = some (.text m.2)

theorem LogEntry.says_of {level : Level} {event : String} {context : List (String × Value)}
    {texts : List (String × Text)} (h : ∀ m ∈ texts, context.lookup m.1 = some (.text m.2)) :
    (LogEntry.of level event context).Says event texts :=
  ⟨rfl, fun m hm => (LogEntry.get?_of level event m.1 context).trans (h m hm)⟩

def errorsOf (log : List LogEntry) : List LogEntry := log.filter fun e => e.level = .error

def Step.errors (s : Step) : List LogEntry := errorsOf s.log

@[simp] theorem errorsOf_append (log log' : List LogEntry) :
    errorsOf (log ++ log') = errorsOf log ++ errorsOf log' := List.filter_append ..

@[simp] theorem Step.errors_after (log : List LogEntry) (s : Step) :
    (s.after log).errors = errorsOf log ++ s.errors := errorsOf_append ..

@[simp] theorem Step.failure_after (log : List LogEntry) (s : Step) :
    (s.after log).failure = s.failure := rfl

@[simp] theorem Step.session_after (log : List LogEntry) (s : Step) :
    (s.after log).session = s.session := rfl

/-- Reading a file fails for a reason of the system, or because its path has no bytes or a NUL. -/
theorem FileSystem.read_failure {fs : FileSystem} {path : Text} {f : Failure}
    (h : fs.read path = .error f) :
    (∃ e, f = .system e) ∨ f = .nulInPath ∨ f = .unencodable (Path.clean path) := by
  simp only [FileSystem.read] at h
  split at h
  · cases h
  · exact .inl ⟨_, (Except.error.inj h).symm⟩
  · rename_i e _
    obtain rfl := Except.error.inj h
    cases e with
    | nul => exact .inr (.inl rfl)
    | unencodable => exact .inr (.inr rfl)
    | _ => exact .inl ⟨_, rfl⟩

namespace Session

variable {config : Config} {fs : FileSystem}

inductive Reports (config : Config) (fs : FileSystem) : LoadError → LogEntry → Prop
  | cannotOpen {path : Text} {cause : SystemError} {e : LogEntry}
      (hread : fs.read path = .error (.system cause))
      (he : e.Says "file_read_failed" [("file_path", path), ("error", cause.message)]) :
      Reports config fs (.cannotOpen path (some cause)) e
  | unparsable {path : Text} {bytes : Bytes} {r : Rejection} {e : LogEntry}
      (hread : fs.read path = .ok bytes)
      (hparse : config.templateParser.parse bytes = .rejected r)
      (he : e.Says "hcl_parse_failed" [("file_path", path), ("error", r.reason)]) :
      Reports config fs (.unparsable path r.reason (some r)) e
  | notFetched {source key : Text} {e : LogEntry}
      (hthere : fs.exists? (config.settings.modulePath key) = false)
      (he : e.Says "module_not_found" [("module_source", source), ("module_key", key)]) :
      Reports config fs (.notFetched source key) e

def Reported (config : Config) (fs : FileSystem) (s : Step) : Prop :=
  match s.failure with
  | some (.load f) => ∃ e, s.errors = [e] ∧ Reports config fs f e
  | _ => s.errors = []

theorem Reported.after {s : Step} {log : List LogEntry} (h : Reported config fs s)
    (hlog : errorsOf log = []) : Reported config fs (s.after log) := by
  unfold Reported at h ⊢
  simpa only [Step.errors_after, Step.failure_after, hlog, List.nil_append] using h

theorem loadFile_reported (path key : Text) (s : Session) :
    Reported config fs (loadFile config fs path key s) := by
  cases hread : fs.read path with
  | error f =>
    obtain ⟨cause, rfl⟩ | rfl | rfl := FileSystem.read_failure hread
    · simp only [loadFile, hread]
      exact ⟨_, rfl, .cannotOpen hread (LogEntry.says_of (by simp [List.lookup_cons]))⟩
    all_goals
      simp only [loadFile, hread]
      rfl
  | ok bytes =>
    cases hparse : config.templateParser.parse bytes with
    | rejected r =>
      simp only [loadFile, hread, hparse]
      exact ⟨_, rfl, .unparsable hread hparse (LogEntry.says_of (by simp [List.lookup_cons]))⟩
    | broken b =>
      simp only [loadFile, hread, hparse]
      rfl
    | document d =>
      simp only [loadFile, hread, hparse]
      rfl

theorem Reported.chain {first both : Step} {rest : Session → Step}
    (hboth : both = match first with
      | ⟨s, log, some f⟩ => ⟨s, log, some f⟩
      | ⟨s, log, none⟩ => (rest s).after log)
    (h : Reported config fs first) (hrest : ∀ s, Reported config fs (rest s)) :
    Reported config fs both := by
  obtain ⟨s, log, failure⟩ := first
  subst hboth
  cases failure with
  | some f => exact h
  | none => exact (hrest s).after h

theorem loadFiles_reported (count : Metrics → Metrics) (files : List (Text × Text)) (s : Session) :
    Reported config fs (loadFiles config fs count files s) := by
  induction files generalizing s with
  | nil => rfl
  | cons file files ih =>
    exact .chain rfl (loadFile_reported file.1 file.2 s) fun t =>
      ih { t with metrics := count t.metrics }

/-- A search that breaks off does so by no failure of the loader's own. -/
theorem find_failure {deep : Bool} {pattern : Text} {f : Failure}
    (h : config.find fs deep pattern = .error f) (e : LoadError) : f ≠ .load e := by
  unfold Config.find at h
  split at h
  · cases h
    exact nofun
  split at h
  next u _ =>
    cases h
    cases u.error <;> exact nofun
  · cases h

theorem reported_of_find {deep : Bool} {pattern : Text} {f : Failure}
    (h : config.find fs deep pattern = .error f) (s : Session) {log : List LogEntry}
    (hlog : errorsOf log = []) : Reported config fs ⟨s, log, some f⟩ := by
  unfold Reported
  split
  next e heq => exact absurd (Option.some.inj heq) (find_failure h e)
  next => exact hlog

theorem loadTemplate_reported (pattern : Text) (s : Session) :
    Reported config fs (loadTemplate config fs pattern s) := by
  cases hps : config.find fs false pattern with
  | error f =>
    simp only [loadTemplate, hps]
    exact reported_of_find hps s rfl
  | ok ps =>
    simp only [loadTemplate, hps]
    exact loadFiles_reported _ _ _

theorem loadDirectory_reported (directory : Text) (s : Session) :
    Reported config fs (loadDirectory config fs directory s) := by
  cases hd : fs.locate true (Path.clean directory) with
  | error e =>
    simp only [loadDirectory, hd]
    cases e <;> rfl
  | ok node =>
    simp only [loadDirectory, hd]
    exact loadTemplate_reported _ _

theorem loadModule_reported (key source : Text) (s : Session) :
    Reported config fs (loadModule config fs key source s) := by
  cases hthere : fs.exists? (config.settings.modulePath key) with
  | false =>
    simp only [loadModule, hthere]
    exact ⟨_, rfl, .notFetched hthere (LogEntry.says_of (by simp [List.lookup_cons]))⟩
  | true =>
    cases hps : config.find fs true
        (modulePattern config.settings (config.settings.modulePath key)) with
    | error f =>
      simp only [loadModule, hthere, hps]
      exact reported_of_find hps s rfl
    | ok ps =>
      simp only [loadModule, hthere, hps]
      exact (loadFiles_reported _ _ _).after rfl

def StateMissed (s : Step) : Prop :=
  s.failure = none ∧ (s.session.metrics.stateSource = Metrics.localSource ∨
    s.session.metrics.stateSource = Metrics.remoteSource) ∧ s.session.metrics.stateLoaded = false

/-- State that was found but could not be read goes with one entry of level error, and any other end
with none. -/
def StateReported (s : Step) : Prop :=
  (StateMissed s ∧ ∃ e, s.errors = [e]) ∨ (¬ StateMissed s ∧ s.errors = [])

theorem StateReported.after {s : Step} {log : List LogEntry} (h : StateReported s)
    (hlog : errorsOf log = []) : StateReported (s.after log) := by
  unfold StateReported StateMissed at h ⊢
  simpa only [Step.errors_after, Step.failure_after, Step.session_after, hlog, List.nil_append]
    using h

theorem readState_reported (path : Text) {source : Text} (s : Session)
    (hsource : source = Metrics.localSource ∨ source = Metrics.remoteSource) :
    StateReported (readState fs path source s) := by
  cases hread : fs.read path with
  | error f =>
    obtain ⟨cause, rfl⟩ | rfl | rfl := FileSystem.read_failure hread
    · simp only [readState, hread]
      exact .inl ⟨⟨rfl, hsource, rfl⟩, _, rfl⟩
    all_goals
      simp only [readState, hread]
      exact .inr ⟨fun h => Option.some_ne_none _ h.1, rfl⟩
  | ok bytes =>
    cases hstate : State.decode bytes with
    | failed ps =>
      simp only [readState, hread, hstate]
      exact .inl ⟨⟨rfl, hsource, rfl⟩, _, rfl⟩
    | passed state =>
      simp only [readState, hread, hstate]
      exact .inr ⟨fun h => Bool.noConfusion h.2.2, rfl⟩

theorem noSource_ne : ¬ (Metrics.noSource = Metrics.localSource ∨
    Metrics.noSource = Metrics.remoteSource) := by
  decide

theorem loadState_reported (s : Session) : StateReported (loadState config fs s) := by
  cases henv : readEnvironment config.settings fs with
  | error f =>
    simp only [loadState, henv]
    exact .inr ⟨fun h => Option.some_ne_none _ h.1, rfl⟩
  | ok environment =>
    cases hsource : stateSource? config.settings fs
        (localStatePath config.settings environment) with
    | none =>
      simp only [loadState, henv, hsource]
      refine .inr ⟨fun h => noSource_ne h.2.1, ?_⟩
      cases environment <;> rfl
    | some found =>
      obtain ⟨path, source⟩ := found
      simp only [loadState, henv, hsource]
      refine (readState_reported path s (stateSource?_source hsource)).after ?_
      cases environment <;> rfl

/-- How an override file fared: the document it gave, if it was not passed over, and the entries of
level error that tell of it. -/
inductive Fared (config : Config) (fs : FileSystem) (path : Text) :
    Option Document → List LogEntry → Prop
  | absent {e : LogEntry} (hthere : fs.exists? path = false)
      (he : e.Says "tfvars_file_not_found" [("file_path", path)]) :
      Fared config fs path none [e]
  | unreadable {cause : SystemError} {e : LogEntry} (hread : fs.read path = .error (.system cause))
      (he : e.Says "tfvars_read_failed" [("file_path", path), ("error", cause.message)]) :
      Fared config fs path none [e]
  | rejected {bytes : Bytes} {es : List LogEntry} (hread : fs.read path = .ok bytes)
      (hes : List.Forall₂ (fun p e => ∃ r, p.parse bytes = .rejected r ∧
        e.Says "tfvars_parse_failed"
          [("file_path", path), ("syntax", r.syntaxName), ("error", r.reason)])
        config.tfvarsParsers es) :
      Fared config fs path none es
  | loaded {bytes : Bytes} {before after : List Parser} {p : Parser} {d : Document}
      (hread : fs.read path = .ok bytes) (hparsers : config.tfvarsParsers = before ++ p :: after)
      (hparse : p.parse bytes = .document d)
      (hbefore : ∀ q ∈ before, ∃ r, q.parse bytes = .rejected r) :
      Fared config fs path (some d) []

theorem Fared.errors_ne_nil {path : Text} {es : List LogEntry} (h : Fared config fs path none es)
    (hparsers : config.tfvarsParsers ≠ []) : es ≠ [] := by
  cases h with
  | absent => exact List.cons_ne_nil _ _
  | unreadable => exact List.cons_ne_nil _ _
  | rejected hread hes =>
    rintro rfl
    exact hparsers (List.forall₂_nil_right_iff.mp hes)

theorem Fared.errors_of_loaded {path : Text} {d : Document} {es : List LogEntry}
    (h : Fared config fs path (some d) es) : es = [] := by
  cases h
  rfl

/-- A step took in how override files fared, in order: it wrote their entries and no others of level
error, kept their documents, and counted those that were passed over. -/
structure TakesIn (s : Session) (outcomes : List (Option Document × List LogEntry)) (step : Step) :
    Prop where
  errors : step.errors = outcomes.flatMap (·.2)
  tfvars : step.session.tfvars = s.tfvars ++ outcomes.filterMap (·.1)
  skipped : step.session.metrics.tfvarsSkipped =
    s.metrics.tfvarsSkipped + outcomes.countP (·.1.isNone)

theorem TakesIn.append {s t : Session} {log : List LogEntry} {failure : Option Failure} {step : Step}
    {xs ys : List (Option Document × List LogEntry)} (h : TakesIn s xs ⟨t, log, failure⟩)
    (hstep : TakesIn t ys step) : TakesIn s (xs ++ ys) (step.after log) where
  errors := by
    have hlog : errorsOf log = xs.flatMap (·.2) := h.errors
    rw [Step.errors_after, hlog, hstep.errors, List.flatMap_append]
  tfvars := by
    have ht : t.tfvars = s.tfvars ++ xs.filterMap (·.1) := h.tfvars
    rw [Step.session_after, hstep.tfvars, ht, List.filterMap_append, List.append_assoc]
  skipped := by
    have ht : t.metrics.tfvarsSkipped = s.metrics.tfvarsSkipped + xs.countP (·.1.isNone) := h.skipped
    rw [Step.session_after, hstep.skipped, ht, List.countP_append, Nat.add_assoc]

/-- Loading one override file breaks off and leaves nothing, or takes in how the file fared. -/
theorem loadTfvarsFile_takesIn (path : Text) (s : Session) :
    (∃ f, (loadTfvarsFile config fs path s).failure = some f ∧
      TakesIn s [] (loadTfvarsFile config fs path s)) ∨
    ∃ d es, Fared config fs path d es ∧ (loadTfvarsFile config fs path s).failure = none ∧
      TakesIn s [(d, es)] (loadTfvarsFile config fs path s) := by
  obtain ⟨edits, log, failure, h⟩ := exists_overrideFares config fs path
  rw [h.run_eq]
  cases h with
  | absent hthere =>
    exact .inr ⟨none, _, .absent hthere (LogEntry.says_of (by simp)), rfl, rfl,
      by simp [Edit.apply], rfl⟩
  | unreadable _ hread =>
    exact .inr ⟨none, _, .unreadable hread (LogEntry.says_of (by simp [List.lookup_cons])), rfl, rfl,
      by simp [Edit.apply], rfl⟩
  | failed | broken => exact .inl ⟨_, rfl, rfl, by simp, rfl⟩
  | @rejected bytes rejections _ _ hread htried =>
    have hes : Fared config fs path none (rejections.map (rejectedEntry path)) :=
      .rejected hread (List.forall₂_map_right_iff.mpr
        ((htried.allReject rfl).imp fun p r hr =>
          ⟨r, hr, LogEntry.says_of (by simp [List.lookup_cons])⟩))
    have hlevel : errorsOf (rejections.map (rejectedEntry path)) =
        rejections.map (rejectedEntry path) := List.filter_eq_self.mpr fun e he => by
      obtain ⟨r, -, rfl⟩ := List.mem_map.mp he
      rfl
    exact .inr ⟨none, _, hes, rfl, hlevel.trans (List.append_nil _).symm,
      by simp [Edit.apply], rfl⟩
  | loaded _ hread htried =>
    obtain ⟨before, p, after, hparsers, hbefore, hparse⟩ := htried.firstGives rfl
    refine .inr ⟨some _, [], .loaded hread hparsers hparse hbefore, rfl, ?_,
      by simp [Edit.apply], rfl⟩
    split <;> rfl

def Overridden (config : Config) (fs : FileSystem) (s : Session) (paths : List Text) (step : Step) :
    Prop :=
  ∃ outcomes : List (Option Document × List LogEntry),
    List.Forall₂ (fun path o => Fared config fs path o.1 o.2) (paths.take outcomes.length) outcomes ∧
    (step.failure = none → outcomes.length = paths.length) ∧ TakesIn s outcomes step

theorem loadTfvarsFiles_overridden (paths : List Text) (s : Session) :
    Overridden config fs s paths (loadTfvarsFiles config fs paths s) := by
  induction paths generalizing s with
  | nil => exact ⟨[], .nil, fun _ => rfl, rfl, by simp [loadTfvarsFiles], rfl⟩
  | cons path paths ih =>
    simp only [loadTfvarsFiles]
    cases hfirst : loadTfvarsFile config fs path s with
    | mk t log failure =>
      obtain ⟨f, hf, htakes⟩ | ⟨d, es, hfared, hf, htakes⟩ := loadTfvarsFile_takesIn path s
      all_goals
        rw [hfirst] at hf htakes
        subst hf
      · exact ⟨[], .nil, fun h => absurd h (Option.some_ne_none f), htakes⟩
      · obtain ⟨outcomes, hall, hlength, hrest⟩ := ih t
        refine ⟨(d, es) :: outcomes, .cons hfared hall, fun h => ?_, htakes.append hrest⟩
        rw [List.length_cons, List.length_cons, hlength h]

theorem loadTfvars_overridden (paths : List Text) (s : Session) :
    Overridden config fs s paths (loadTfvars config fs paths s) := by
  obtain ⟨outcomes, hall, hlength, htakes⟩ := loadTfvarsFiles_overridden paths s
  exact ⟨outcomes, hall, hlength, ⟨htakes.errors, htakes.tfvars, htakes.skipped⟩⟩

theorem entries_ne_nil_iff {paths : List Text} {outcomes : List (Option Document × List LogEntry)}
    (h : List.Forall₂ (fun path o => Fared config fs path o.1 o.2) paths outcomes)
    (hparsers : config.tfvarsParsers ≠ []) :
    outcomes.flatMap (·.2) ≠ [] ↔ 0 < outcomes.countP (·.1.isNone) := by
  induction h with
  | nil => simp
  | @cons path o paths outcomes hfared hrest ih =>
    obtain ⟨d, es⟩ := o
    cases d with
    | none => simp [hfared.errors_ne_nil hparsers]
    | some d =>
      obtain rfl := hfared.errors_of_loaded
      simpa using ih

/-- There is an entry of level error exactly where a file was passed over. -/
theorem Overridden.errors_ne_nil_iff {s : Session} {paths : List Text} {step : Step}
    (h : Overridden config fs s paths step) (hparsers : config.tfvarsParsers ≠ []) :
    step.errors ≠ [] ↔ s.metrics.tfvarsSkipped < step.session.metrics.tfvarsSkipped := by
  obtain ⟨outcomes, hall, -, htakes⟩ := h
  rw [htakes.errors, htakes.skipped, entries_ne_nil_iff hall hparsers]
  omega

def WentWrong (s : Session) (step : Step) : Call → Prop
  | .template _ | .directory _ | .moduleFiles _ _ => ∃ f, step.failure = some (.load f)
  | .state => StateMissed step
  | .tfvars _ => s.metrics.tfvarsSkipped < step.session.metrics.tfvarsSkipped

def Diagnosed (config : Config) (fs : FileSystem) (s : Session) (step : Step) : Call → Prop
  | .template _ | .directory _ | .moduleFiles _ _ => Reported config fs step
  | .state => StateReported step
  | .tfvars paths => Overridden config fs s paths step

theorem Reported.errors_ne_nil_iff {step : Step} (h : Reported config fs step) :
    step.errors ≠ [] ↔ ∃ f, step.failure = some (.load f) := by
  unfold Reported at h
  split at h
  · rename_i f hf
    obtain ⟨e, he, -⟩ := h
    simp [he, hf]
  · rename_i hf
    exact iff_of_false (not_not.mpr h) fun ⟨f, heq⟩ => hf f heq

theorem StateReported.errors_ne_nil_iff {step : Step} (h : StateReported step) :
    step.errors ≠ [] ↔ StateMissed step := by
  obtain ⟨hmissed, e, he⟩ | ⟨hnot, he⟩ := h
  · exact iff_of_true (he ▸ List.cons_ne_nil _ _) hmissed
  · exact iff_of_false (not_not.mpr he) hnot

/-- Every call diagnoses itself: it writes an entry of level error exactly where something went wrong
that the loader answers for, and its entries of that level tell what. -/
theorem run_diagnosed (config : Config) (hparsers : config.tfvarsParsers ≠ []) (fs : FileSystem)
    (s : Session) (c : Call) :
    let step := c.run config fs s
    (step.errors ≠ [] ↔ WentWrong s step c) ∧ Diagnosed config fs s step c := by
  cases c with
  | template pattern =>
    have h : Reported config fs _ := loadTemplate_reported pattern s
    exact ⟨h.errors_ne_nil_iff, h⟩
  | directory directory =>
    have h : Reported config fs _ := loadDirectory_reported directory s
    exact ⟨h.errors_ne_nil_iff, h⟩
  | moduleFiles key source =>
    have h : Reported config fs _ := loadModule_reported key source s
    exact ⟨h.errors_ne_nil_iff, h⟩
  | state =>
    have h : StateReported (loadState config fs s) := loadState_reported s
    exact ⟨h.errors_ne_nil_iff, h⟩
  | tfvars paths =>
    have h : Overridden config fs s paths _ := loadTfvars_overridden paths s
    exact ⟨h.errors_ne_nil_iff hparsers, h⟩

def passedOver : FileSystem :=
  ((FileSystem.empty []).write (text "x.tfvars") (Encoding.encode (text "x = \n"))).write
    (text "y.json") (Encoding.encode (text "\x7b\"y\": 1\x7d\n"))

theorem run_diagnosed_on_sample :
    let config := Config.standard .default
    let call := Call.tfvars [text "x.tfvars", text "y.json", text "z.tfvars"]
    let step := call.run config passedOver empty
    config.tfvarsParsers ≠ [] ∧
      (step.errors.map fun e => (e.event, Members.get? (text "file_path") e.context)) =
        [(text "tfvars_parse_failed", some (.text (text "x.tfvars"))),
          (text "tfvars_parse_failed", some (.text (text "x.tfvars"))),
          (text "tfvars_file_not_found", some (.text (text "z.tfvars")))] ∧
      (step.errors ≠ [] ↔ WentWrong empty step call) ∧
      Diagnosed config passedOver empty step call := by
  have hparsers : (Config.standard .default).tfvarsParsers ≠ [] := List.cons_ne_nil _ _
  exact ⟨hparsers, by decide +kernel, run_diagnosed _ hparsers _ _ _⟩

end Session

end Terraload
