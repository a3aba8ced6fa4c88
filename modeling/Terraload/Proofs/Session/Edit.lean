import Terraload.Proofs.Parser.Fallback
import Terraload.Session
/-!
What a call does to a session, as data: a row of edits, the entries it writes, and the failure it
raises. The files and the configuration settle all three; the session that the call is made on has
no say in them.
-/
namespace Terraload

inductive Edit
  | template (key : Text) (d : Document) (bytes : Bytes)
  | moduleFile (key : Text) (d : Document) (bytes : Bytes)
  | stateMissed (source : Text)
  | stateLoaded (source : Text) (state : State)
  | tfvarsSkipped
  | tfvarsLoaded (d : Document)

namespace Edit

def apply (s : Session) : Edit → Session
  | .template key d bytes =>
    { s with store := s.store.put key d bytes, metrics := s.metrics.recordTemplate }
  | .moduleFile key d bytes =>
    { s with store := s.store.put key d bytes, metrics := s.metrics.recordModuleFile }
  | .stateMissed source => { s with metrics := s.metrics.recordState source false }
  | .stateLoaded source state =>
    { s with state := state, metrics := s.metrics.recordState source true }
  | .tfvarsSkipped => { s with metrics := s.metrics.recordTfvarsSkipped }
  | .tfvarsLoaded d =>
    { s with tfvars := s.tfvars ++ [d], metrics := s.metrics.recordTfvarsLoaded }

structure Stores (config : Config) (fs : FileSystem) (path : Text) (d : Document)
    (bytes : Bytes) : Prop where
  read : fs.read path = .ok bytes
  parse : config.templateParser.parse bytes = .document d

end Edit

def Call.templatePattern? (settings : Settings) : Call → Option Text
  | .template p => some p
  | .directory d => some (Session.directoryPattern settings d)
  | .moduleFiles _ _ | .state | .tfvars _ => none

inductive Edit.From (config : Config) (fs : FileSystem) : Call → Edit → Prop
  | template {c : Call} {pattern path : Text} {ps : List Text} {d : Document} {bytes : Bytes}
      (hc : c.templatePattern? config.settings = some pattern)
      (hps : Glob.paths fs false pattern = .ok ps) (hpath : path ∈ ps)
      (h : Stores config fs path d bytes) :
      From config fs c (.template (Session.templateKey path) d bytes)
  | moduleFile {key source path : Text} {ps : List Text} {d : Document} {bytes : Bytes}
      (hps : Glob.paths fs true
        (Session.modulePattern config.settings (config.settings.modulePath key)) = .ok ps)
      (hpath : path ∈ ps) (h : Stores config fs path d bytes) :
      From config fs (.moduleFiles key source)
        (.moduleFile (Session.moduleFileKey (config.settings.modulePath key) source path) d bytes)
  | stateMissed (source : Text) : From config fs .state (.stateMissed source)
  | stateLoaded {source : Text} (state : State)
      (h : source = Metrics.localSource ∨ source = Metrics.remoteSource) :
      From config fs .state (.stateLoaded source state)
  | tfvarsSkipped (paths : List Text) : From config fs (.tfvars paths) .tfvarsSkipped
  | tfvarsLoaded (paths : List Text) (d : Document) :
      From config fs (.tfvars paths) (.tfvarsLoaded d)

/-- A search that does not break off finds what the pattern stands for. -/
theorem Config.find_eq_ok {config : Config} {fs : FileSystem} {deep : Bool} {pattern : Text}
    {ps : List Text} : config.find fs deep pattern = .ok ps ↔
      Glob.levels fs deep pattern ≤ config.searchLimit ∧ Glob.paths fs deep pattern = .ok ps := by
  unfold find
  split
  next hdeep => exact ⟨nofun, fun h => absurd h.1 (Nat.not_le.mpr hdeep)⟩
  next hdeep =>
    rw [and_iff_right (Nat.le_of_not_lt hdeep)]
    cases Glob.paths fs deep pattern <;> simp

namespace Session

variable {config : Config} {fs : FileSystem} {P Q : Edit → Prop} {run rest : Session → Step}
  {log : List LogEntry} {failure : Option Failure}

/-- An operation that makes the same edits on every session, all of a kind, writes the same entries
and ends in the same way. -/
def Makes (P : Edit → Prop) (run : Session → Step) : Prop :=
  ∃ (edits : List Edit) (log : List LogEntry) (failure : Option Failure),
    (∀ s, run s = ⟨edits.foldl Edit.apply s, log, failure⟩) ∧ ∀ e ∈ edits, P e

theorem Makes.none (h : ∀ s, run s = ⟨s, log, failure⟩) : Makes P run :=
  ⟨[], log, failure, h, by simp⟩

theorem Makes.one {e : Edit} (h : ∀ s, run s = ⟨e.apply s, log, failure⟩) (he : P e) :
    Makes P run :=
  ⟨[e], log, failure, h, by simpa using he⟩

theorem Makes.mono (h : Makes P run) (hPQ : ∀ e, P e → Q e) : Makes Q run := by
  obtain ⟨edits, log, failure, hrun, hedits⟩ := h
  exact ⟨edits, log, failure, hrun, fun e he => hPQ e (hedits e he)⟩

theorem Makes.after (h : Makes P run) (before : List LogEntry) :
    Makes P fun s => (run s).after before := by
  obtain ⟨edits, log, failure, hrun, hedits⟩ := h
  exact ⟨edits, before ++ log, failure, fun s => by simp only [hrun, Step.after], hedits⟩

/-- An operation and the one behind it, which is left out where the first fails. -/
theorem Makes.chain {both : Session → Step} (h : Makes P run) (hrest : Makes P rest)
    (hboth : ∀ s, both s =
      match run s with
      | ⟨s, log, some f⟩ => ⟨s, log, some f⟩
      | ⟨s, log, .none⟩ => (rest s).after log) : Makes P both := by
  obtain ⟨edits, log, failure, hrun, hedits⟩ := h
  cases failure with
  | some f => exact ⟨edits, log, some f, fun s => by simp only [hboth, hrun], hedits⟩
  | none =>
    obtain ⟨more, log', failure, hrest, hmore⟩ := hrest
    refine ⟨edits ++ more, log ++ log', failure, fun s => ?_, ?_⟩
    · simp only [hboth, hrun, hrest, Step.after, List.foldl_append]
    · intro e he
      obtain he | he := List.mem_append.mp he
      · exact hedits e he
      · exact hmore e he

/-- Loading a file fails and leaves every session as it was, or stores what its bytes were parsed
to. -/
theorem loadFile_cases (config : Config) (fs : FileSystem) (path key : Text) :
    (∃ log f, ∀ s, loadFile config fs path key s = ⟨s, log, some f⟩) ∨
    ∃ bytes d log, Edit.Stores config fs path d bytes ∧ ∀ s,
      loadFile config fs path key s = ⟨{ s with store := s.store.put key d bytes }, log, none⟩ := by
  cases hread : fs.read path with
  | error f =>
    left
    cases f <;> exact ⟨_, _, fun s => by simp only [loadFile, hread]; rfl⟩
  | ok bytes =>
    cases hparse : config.templateParser.parse bytes with
    | rejected r => exact .inl ⟨_, _, fun s => by simp only [loadFile, hread, hparse]; rfl⟩
    | broken b => exact .inl ⟨_, _, fun s => by simp only [loadFile, hread, hparse]; rfl⟩
    | document d =>
      exact .inr ⟨bytes, d, _, ⟨hread, hparse⟩, fun s => by simp only [loadFile, hread, hparse]; rfl⟩

/-- A file that is loaded gives one edit, which also counts it. -/
theorem makes_loadFiles (make : Text → Document → Bytes → Edit) {count : Metrics → Metrics}
    (hmake : ∀ key d bytes s, (make key d bytes).apply s =
      { s with store := s.store.put key d bytes, metrics := count s.metrics })
    (files : List (Text × Text)) :
    Makes (fun e => ∃ path key d bytes, (path, key) ∈ files ∧ Edit.Stores config fs path d bytes ∧
      e = make key d bytes) (loadFiles config fs count files) := by
  induction files with
  | nil => exact .none fun s => rfl
  | cons file files ih =>
    obtain ⟨path, key⟩ := file
    obtain ⟨log, f, h⟩ | ⟨bytes, d, log, hstores, h⟩ := loadFile_cases config fs path key
    · exact .none fun s => by simp only [loadFiles, h]; rfl
    · obtain ⟨edits, log', failure, hrun, hedits⟩ := ih
      refine ⟨make key d bytes :: edits, log ++ log', failure, fun s => ?_, ?_⟩
      · simp only [loadFiles, h, hrun, Step.after, List.foldl_cons, hmake]
      · intro e he
        obtain rfl | he := List.mem_cons.mp he
        · exact ⟨path, key, d, bytes, by simp, hstores, rfl⟩
        · obtain ⟨p, k, d, b, hmem, hstores, rfl⟩ := hedits e he
          exact ⟨p, k, d, b, List.mem_cons_of_mem _ hmem, hstores, rfl⟩

theorem makes_loadTemplate {c : Call} {pattern : Text}
    (hc : c.templatePattern? config.settings = some pattern) :
    Makes (Edit.From config fs c) (loadTemplate config fs pattern) := by
  cases hps : config.find fs false pattern with
  | error f => exact .none fun s => by simp only [loadTemplate, hps]; rfl
  | ok ps =>
    have hrun (s : Session) : loadTemplate config fs pattern s = loadFiles config fs
        Metrics.recordTemplate (ps.map fun p => (p, templateKey p)) s := by
      simp only [loadTemplate, hps]
    rw [funext hrun]
    refine (makes_loadFiles .template (fun _ _ _ _ => rfl) _).mono ?_
    rintro e ⟨path, key, d, bytes, hmem, hstores, rfl⟩
    obtain ⟨p, hp, heq⟩ := List.mem_map.mp hmem
    cases heq
    exact .template hc (Config.find_eq_ok.mp hps).2 hp hstores

theorem makes_loadDirectory (d : Text) :
    Makes (Edit.From config fs (.directory d)) (loadDirectory config fs d) := by
  cases hd : fs.locate true (Path.clean d) with
  | error e => exact .none fun s => by simp only [loadDirectory, hd]; rfl
  | ok node =>
    have hrun (s : Session) : loadDirectory config fs d s =
        loadTemplate config fs (directoryPattern config.settings d) s := by
      simp only [loadDirectory, hd]
    rw [funext hrun]
    exact makes_loadTemplate rfl

theorem makes_loadModule (key source : Text) :
    Makes (Edit.From config fs (.moduleFiles key source)) (loadModule config fs key source) := by
  cases hthere : fs.exists? (config.settings.modulePath key) with
  | false => exact .none fun s => by simp only [loadModule, hthere]; rfl
  | true =>
    cases hps : config.find fs true
        (modulePattern config.settings (config.settings.modulePath key)) with
    | error f => exact .none fun s => by simp only [loadModule, hthere, hps]; rfl
    | ok ps =>
      have hrun (s : Session) := show loadModule config fs key source s = (loadFiles config fs
          Metrics.recordModuleFile (ps.map fun p =>
            (p, moduleFileKey (config.settings.modulePath key) source p)) s).after _ by
        simp only [loadModule, hthere, hps]; rfl
      rw [funext hrun]
      refine ((makes_loadFiles .moduleFile (fun _ _ _ _ => rfl) _).mono ?_).after _
      rintro e ⟨path, k, d, bytes, hmem, hstores, rfl⟩
      obtain ⟨p, hp, heq⟩ := List.mem_map.mp hmem
      cases heq
      exact .moduleFile (Config.find_eq_ok.mp hps).2 hp hstores

theorem stateSource?_source {settings : Settings} {localPath p source : Text}
    (h : stateSource? settings fs localPath = some (p, source)) :
    source = Metrics.localSource ∨ source = Metrics.remoteSource := by
  unfold stateSource? at h
  split at h
  · simp only [Option.some.injEq, Prod.mk.injEq] at h
    exact .inl h.2.symm
  split at h
  · simp only [Option.some.injEq, Prod.mk.injEq] at h
    exact .inr h.2.symm
  · cases h

theorem makes_readState (path : Text) {source : Text}
    (hsource : source = Metrics.localSource ∨ source = Metrics.remoteSource) :
    Makes (Edit.From config fs .state) (readState fs path source) := by
  cases hread : fs.read path with
  | error f =>
    cases f with
    | system e =>
      exact .one (fun s => by simp only [readState, hread]; rfl) (.stateMissed source)
    | _ => exact .none fun s => by simp only [readState, hread]; rfl
  | ok bytes =>
    cases hstate : State.decode bytes with
    | failed ps =>
      exact .one (fun s => by simp only [readState, hread, hstate]; rfl) (.stateMissed source)
    | passed state =>
      exact .one (fun s => by simp only [readState, hread, hstate]; rfl)
        (.stateLoaded state hsource)

theorem makes_loadState : Makes (Edit.From config fs .state) (loadState config fs) := by
  cases henv : readEnvironment config.settings fs with
  | error f => exact .none fun s => by simp only [loadState, henv]; rfl
  | ok environment =>
    cases hsource : stateSource? config.settings fs
        (localStatePath config.settings environment) with
    | none =>
      exact .one (fun s => by simp only [loadState, henv, hsource]; rfl) (.stateMissed _)
    | some found =>
      obtain ⟨path, source⟩ := found
      have hrun (s : Session) := show loadState config fs s = (readState fs path source s).after _ by
        simp only [loadState, henv, hsource]; rfl
      rw [funext hrun]
      exact (makes_readState path (stateSource?_source hsource)).after _

def overrideEntry (path : Text) (level : Level) (event : String) (more : List (String × Value)) :
    LogEntry :=
  .of level event (("file_path", .text path) :: more)

def overrideOpening (path : Text) : LogEntry :=
  overrideEntry path .info "loading_tfvars_file" []

def rejectedEntry (path : Text) (r : Rejection) : LogEntry :=
  overrideEntry path .error "tfvars_parse_failed"
    [("syntax", .text r.syntaxName), ("error", .text r.reason)]

def fallbackEntry (path : Text) (rejections : List Rejection) : LogEntry :=
  overrideEntry path .debug "tfvars_parsed_with_fallback"
    [("failed_syntaxes", .list (rejections.map fun r => .text r.syntaxName))]

inductive OverrideFares (config : Config) (fs : FileSystem) (path : Text) :
    List Edit → List LogEntry → Option Failure → Prop
  | absent (there : fs.exists? path = false) :
      OverrideFares config fs path [.tfvarsSkipped]
        [overrideOpening path, overrideEntry path .error "tfvars_file_not_found" []] none
  | unreadable {e : SystemError} (there : fs.exists? path = true)
      (hread : fs.read path = .error (.system e)) :
      OverrideFares config fs path [.tfvarsSkipped]
        [overrideOpening path,
          overrideEntry path .error "tfvars_read_failed" [("error", .text e.message)]] none
  | failed {f : Failure} (there : fs.exists? path = true) (hread : fs.read path = .error f)
      (hf : ∀ e, f ≠ .system e) : OverrideFares config fs path [] [overrideOpening path] (some f)
  | rejected {bytes : Bytes} {rejections : List Rejection} {calls : Nat}
      (there : fs.exists? path = true) (hread : fs.read path = .ok bytes)
      (h : Parser.Tried bytes config.tfvarsParsers ⟨.ok none, rejections, calls⟩) :
      OverrideFares config fs path [.tfvarsSkipped]
        (overrideOpening path :: rejections.map (rejectedEntry path)) none
  | loaded {bytes : Bytes} {d : Document} {rejections : List Rejection} {calls : Nat}
      (there : fs.exists? path = true) (hread : fs.read path = .ok bytes)
      (h : Parser.Tried bytes config.tfvarsParsers ⟨.ok (some d), rejections, calls⟩) :
      OverrideFares config fs path [.tfvarsLoaded d]
        (overrideOpening path ::
          if rejections.isEmpty then [] else [fallbackEntry path rejections]) none
  | broken {bytes : Bytes} {b : Breakdown} {rejections : List Rejection} {calls : Nat}
      (there : fs.exists? path = true) (hread : fs.read path = .ok bytes)
      (h : Parser.Tried bytes config.tfvarsParsers ⟨.error b, rejections, calls⟩) :
      OverrideFares config fs path [] [overrideOpening path] (some (.broken b))

theorem exists_overrideFares (config : Config) (fs : FileSystem) (path : Text) :
    ∃ edits log failure, OverrideFares config fs path edits log failure := by
  cases hthere : fs.exists? path with
  | false => exact ⟨_, _, _, .absent hthere⟩
  | true =>
    cases hread : fs.read path with
    | error f =>
      cases f with
      | system e => exact ⟨_, _, _, .unreadable hthere hread⟩
      | _ => exact ⟨_, _, _, .failed hthere hread nofun⟩
    | ok bytes =>
      have htried := Parser.tried_parseFirst config.tfvarsParsers bytes
      cases htrial : Parser.parseFirst config.tfvarsParsers bytes with
      | mk result rejections calls =>
        rw [htrial] at htried
        cases result with
        | error b => exact ⟨_, _, _, .broken hthere hread htried⟩
        | ok found =>
          cases found with
          | none => exact ⟨_, _, _, .rejected hthere hread htried⟩
          | some d => exact ⟨_, _, _, .loaded hthere hread htried⟩

variable {path : Text} {edits : List Edit}

theorem OverrideFares.run_eq (h : OverrideFares config fs path edits log failure) (s : Session) :
    loadTfvarsFile config fs path s = ⟨edits.foldl Edit.apply s, log, failure⟩ := by
  cases h with
  | absent hthere =>
    simp only [loadTfvarsFile, hthere]
    rfl
  | unreadable hthere hread =>
    simp only [loadTfvarsFile, hthere, hread]
    rfl
  | @failed f hthere hread hf =>
    cases f with
    | system e => exact absurd rfl (hf e)
    | _ =>
      simp only [loadTfvarsFile, hthere, hread]
      rfl
  | rejected hthere hread h | loaded hthere hread h | broken hthere hread h =>
    simp only [loadTfvarsFile, hthere, hread, h.parseFirst_eq]
    rfl

theorem makes_loadTfvarsFile (paths : List Text) (path : Text) :
    Makes (Edit.From config fs (.tfvars paths)) (loadTfvarsFile config fs path) := by
  obtain ⟨edits, log, failure, h⟩ := exists_overrideFares config fs path
  refine ⟨edits, log, failure, h.run_eq, ?_⟩
  cases h with
  | absent | unreadable | rejected => exact List.forall_mem_singleton.mpr (.tfvarsSkipped paths)
  | loaded => exact List.forall_mem_singleton.mpr (.tfvarsLoaded paths _)
  | failed | broken => exact List.forall_mem_nil _

theorem makes_loadTfvarsFiles (all paths : List Text) :
    Makes (Edit.From config fs (.tfvars all)) (loadTfvarsFiles config fs paths) := by
  induction paths with
  | nil => exact .none fun s => rfl
  | cons path paths ih =>
    exact (makes_loadTfvarsFile all path).chain ih fun s => rfl

theorem makes_run (config : Config) (fs : FileSystem) (c : Call) :
    Makes (Edit.From config fs c) fun s => c.run config fs s := by
  cases c with
  | template p => exact makes_loadTemplate rfl
  | directory d => exact makes_loadDirectory d
  | moduleFiles key source => exact makes_loadModule key source
  | state => exact makes_loadState
  | tfvars paths => exact (makes_loadTfvarsFiles paths paths).after _

end Session

end Terraload
