import Terraload.Failure
import Terraload.FileSystem.Glob
import Terraload.Journal
import Terraload.Metrics
import Terraload.Settings
import Terraload.State
import Terraload.Store
import Terraload.Text.Blank
/-!
A loading session: templates and modules by key, deployment state, and variable overrides. Loading
templates and modules stops at the first failure and keeps what was loaded before it. Loading state
and overrides reports its problems to the journal alone.
-/
namespace Terraload

/-- What a session works with; a search for a pattern goes down as many levels as `searchLimit`. -/
structure Config where
  settings : Settings
  templateParser : Parser
  tfvarsParsers : List Parser
  searchLimit : Nat

def Config.standard (settings : Settings) : Config :=
  ⟨settings, Parser.hcl, [Parser.hcl, Parser.json], 990⟩

structure Session where
  store : Store
  state : State
  tfvars : List Document
  metrics : Metrics
  deriving DecidableEq

structure Step where
  session : Session
  log : List LogEntry
  failure : Option Failure
  deriving DecidableEq

def Step.after (log : List LogEntry) (s : Step) : Step := { s with log := log ++ s.log }

def PathError.toFailure (path : Text) : PathError → Failure
  | .absent => .system (.ofNumber 2 "No such file or directory" path)
  | .notDirectory => .system (.ofNumber 20 "Not a directory" path)
  | .tooLong => .system (.ofNumber 36 "File name too long" path)
  | .tooManyLinks => .system (.ofNumber 40 "Too many levels of symbolic links" path)
  | .nul => .nulInPath
  | .unencodable => .unencodable path

def Config.find (config : Config) (fs : FileSystem) (deep : Bool) (pattern : Text) :
    Except Failure (List Text) :=
  if config.searchLimit < Glob.levels fs deep pattern then .error (.broken .tooDeep)
  else
    match Glob.paths fs deep pattern with
    | .error u => .error (u.error.toFailure u.directory)
    | .ok ps => .ok ps

def FileSystem.read (fs : FileSystem) (path : Text) : Except Failure Bytes :=
  let p := Path.clean path
  match fs.locate true p with
  | .ok (_, .file bytes) => .ok bytes
  | .ok _ => .error (.system (.ofNumber 21 "Is a directory" p))
  | .error e => .error (e.toFailure p)

namespace Session

def empty : Session := ⟨Store.empty, State.empty, [], Metrics.zero⟩

def loadFile (config : Config) (fs : FileSystem) (path key : Text) (s : Session) : Step :=
  let entry (level : Level) (event : String) (more : List (String × Value)) : LogEntry :=
    .of level event ([("file_path", .text path), ("file_key", .text key)] ++ more)
  let opening := entry .info "loading_hcl_file" []
  match fs.read path with
  | .error (.system e) =>
    ⟨s, [opening, entry .error "file_read_failed" [("error", .text e.message)]],
      some (.load (.cannotOpen path (some e)))⟩
  | .error f => ⟨s, [opening], some f⟩
  | .ok bytes =>
    match config.templateParser.parse bytes with
    | .rejected r =>
      ⟨s, [opening, entry .error "hcl_parse_failed" [("error", .text r.reason)]],
        some (.load (.unparsable path r.reason (some r)))⟩
    | .broken b => ⟨s, [opening], some (.broken b)⟩
    | .document d =>
      ⟨{ s with store := s.store.put key d bytes },
        [opening, entry .debug "hcl_file_loaded" [("size_bytes", .integer bytes.length)]], none⟩

def loadFiles (config : Config) (fs : FileSystem) (count : Metrics → Metrics) :
    List (Text × Text) → Session → Step
  | [], s => ⟨s, [], none⟩
  | (path, key) :: rest, s =>
    match loadFile config fs path key s with
    | ⟨s, log, some f⟩ => ⟨s, log, some f⟩
    | ⟨s, log, none⟩ =>
      (loadFiles config fs count rest { s with metrics := count s.metrics }).after log

def templateKey (path : Text) : Text := normalizeKey (Path.normalize path)

def loadTemplate (config : Config) (fs : FileSystem) (pattern : Text) (s : Session) : Step :=
  match config.find fs false pattern with
  | .error f => ⟨s, [], some f⟩
  | .ok ps =>
    loadFiles config fs Metrics.recordTemplate (ps.map fun p => (p, templateKey p)) s

def directoryPattern (settings : Settings) (directory : Text) : Text :=
  Path.join (Wildcard.escape (Path.normalize directory)) (text "*." ++ settings.templateExtension)

def loadDirectory (config : Config) (fs : FileSystem) (directory : Text) (s : Session) : Step :=
  let p := Path.clean directory
  match fs.locate true p with
  | .error e => ⟨s, [], some (e.toFailure p)⟩
  | .ok _ => loadTemplate config fs (directoryPattern config.settings directory) s

def modulePattern (settings : Settings) (modulePath : Text) : Text :=
  Wildcard.escape modulePath ++ text "/**/*." ++ settings.templateExtension

def moduleFileKey (modulePath source path : Text) : Text :=
  source ++ (normalizeKey path).eraseFirst (normalizeKey modulePath)

def loadModule (config : Config) (fs : FileSystem) (key source : Text) (s : Session) : Step :=
  let entry (level : Level) (event : String) (more : List (String × Value)) : LogEntry :=
    .of level event ([("module_source", .text source), ("module_key", .text key)] ++ more)
  let opening := entry .info "loading_module" []
  let directory := config.settings.modulePath key
  if !fs.exists? directory then
    ⟨s, [opening, entry .error "module_not_found" [("module_path", .text directory)]],
      some (.load (.notFetched source key))⟩
  else
    match config.find fs true (modulePattern config.settings directory) with
    | .error f => ⟨s, [opening], some f⟩
    | .ok ps =>
      (loadFiles config fs Metrics.recordModuleFile
        (ps.map fun p => (p, moduleFileKey directory source p)) s).after [opening]

def defaultEnvironment : Text := text "default"

def unifyLineEnds : List Char → List Char := EnvFile.unifyLineEnds

def readEnvironment (settings : Settings) (fs : FileSystem) : Except Failure (Except Text Text) :=
  match fs.read settings.environmentFile with
  | .error (.system e) => .ok (.error e.message)
  | .error f => .error f
  | .ok bytes =>
    match Encoding.decodeUtf8 bytes with
    | .error p => .ok (.error (Text.ofChars p.message))
    | .ok cs => .ok (.ok (Text.ofChars (stripChars (unifyLineEnds cs))))

def localStatePath (settings : Settings) (environment : Except Text Text) : Text :=
  match environment with
  | .ok e =>
    if e.isEmpty || e == defaultEnvironment then settings.localStatePath
    else settings.workspaceStatePath e
  | .error _ => settings.localStatePath

def stateSource? (settings : Settings) (fs : FileSystem) (localPath : Text) : Option (Text × Text) :=
  if fs.exists? localPath then some (localPath, Metrics.localSource)
  else if fs.exists? settings.remoteStatePath then
    some (settings.remoteStatePath, Metrics.remoteSource)
  else none

def readState (fs : FileSystem) (path source : Text) (s : Session) : Step :=
  let entry (level : Level) (event : String) (more : List (String × Value)) : LogEntry :=
    .of level event ([("state_path", .text path), ("state_source", .text source)] ++ more)
  let opening := entry .info "state_detected" []
  let unread := { s with metrics := s.metrics.recordState source false }
  match fs.read path with
  | .error (.system e) =>
    ⟨unread, [opening, entry .error "state_read_failed" [("error", .text e.message)]], none⟩
  | .error f => ⟨s, [opening], some f⟩
  | .ok bytes =>
    match State.decode bytes with
    | .failed ps =>
      ⟨unread, [opening, entry .error "state_decode_failed"
        [("error", .text (State.report bytes ps))]], none⟩
    | .passed state =>
      ⟨{ s with state := state, metrics := s.metrics.recordState source true },
        [opening, entry .info "state_loaded"
          [("serial", .integer state.serial), ("lineage", .text state.lineage)]], none⟩

def loadState (config : Config) (fs : FileSystem) (s : Session) : Step :=
  let settings := config.settings
  let opening := LogEntry.of .info "loading_environment" []
  match readEnvironment settings fs with
  | .error f => ⟨s, [opening], some f⟩
  | .ok environment =>
    let detected := match environment with
      | .ok e => LogEntry.of .info "environment_detected" [("environment", .text e)]
      | .error m => LogEntry.of .info "environment_file_unavailable"
          [("environment_file", .text settings.environmentFile), ("error", .text m)]
    let path := localStatePath settings environment
    let log := [opening, detected,
      LogEntry.of .info "loading_state" [("local_state_path", .text path)]]
    match stateSource? settings fs path with
    | some (p, source) => (readState fs p source s).after log
    | none =>
      ⟨{ s with metrics := s.metrics.recordState Metrics.noSource false },
        log ++ [LogEntry.of .info "state_not_found"
          [("local_state_path", .text path),
            ("remote_state_path", .text settings.remoteStatePath)]], none⟩

def loadTfvarsFile (config : Config) (fs : FileSystem) (path : Text) (s : Session) : Step :=
  let entry (level : Level) (event : String) (more : List (String × Value)) : LogEntry :=
    .of level event (("file_path", .text path) :: more)
  let opening := entry .info "loading_tfvars_file" []
  let skipped := { s with metrics := s.metrics.recordTfvarsSkipped }
  if !fs.exists? path then ⟨skipped, [opening, entry .error "tfvars_file_not_found" []], none⟩
  else
    match fs.read path with
    | .error (.system e) =>
      ⟨skipped, [opening, entry .error "tfvars_read_failed" [("error", .text e.message)]], none⟩
    | .error f => ⟨s, [opening], some f⟩
    | .ok bytes =>
      let trial := Parser.parseFirst config.tfvarsParsers bytes
      match trial.result with
      | .error b => ⟨s, [opening], some (.broken b)⟩
      | .ok none =>
        ⟨skipped, opening :: trial.rejections.map fun r =>
          entry .error "tfvars_parse_failed"
            [("syntax", .text r.syntaxName), ("error", .text r.reason)], none⟩
      | .ok (some d) =>
        let fallback := if trial.rejections.isEmpty then []
          else [entry .debug "tfvars_parsed_with_fallback"
            [("failed_syntaxes", .list (trial.rejections.map fun r => .text r.syntaxName))]]
        ⟨{ s with tfvars := s.tfvars ++ [d], metrics := s.metrics.recordTfvarsLoaded },
          opening :: fallback, none⟩

def loadTfvarsFiles (config : Config) (fs : FileSystem) : List Text → Session → Step
  | [], s => ⟨s, [], none⟩
  | path :: rest, s =>
    match loadTfvarsFile config fs path s with
    | ⟨s, log, some f⟩ => ⟨s, log, some f⟩
    | ⟨s, log, none⟩ => (loadTfvarsFiles config fs rest s).after log

def loadTfvars (config : Config) (fs : FileSystem) (paths : List Text) (s : Session) : Step :=
  (loadTfvarsFiles config fs paths s).after [LogEntry.of .info "loading_tfvars" []]

end Session

inductive Call
  | template (pattern : Text)
  | directory (path : Text)
  | moduleFiles (key source : Text)
  | state
  | tfvars (paths : List Text)

def Call.run (config : Config) (fs : FileSystem) (s : Session) : Call → Step
  | .template p => s.loadTemplate config fs p
  | .directory d => s.loadDirectory config fs d
  | .moduleFiles k src => s.loadModule config fs k src
  | .state => s.loadState config fs
  | .tfvars ps => s.loadTfvars config fs ps

def Call.runAll (config : Config) (fs : FileSystem) : List Call → Session → Step
  | [], s => ⟨s, [], none⟩
  | c :: cs, s =>
    match run config fs s c with
    | ⟨s, log, some f⟩ => ⟨s, log, some f⟩
    | ⟨s, log, none⟩ => (runAll config fs cs s).after log

/-- What was loaded at one moment. Templates, files and overrides are shown as they are when the
snapshot is looked at; the state is the one of the moment it was taken. -/
structure Snapshot where
  state : State

namespace Snapshot

def take (s : Session) : Snapshot := ⟨s.state⟩

def templates (_ : Snapshot) (s : Session) : Members Document := s.store.templates

def files (_ : Snapshot) (s : Session) : Members Bytes := s.store.files

def tfvars (_ : Snapshot) (s : Session) : List Document := s.tfvars

end Snapshot

end Terraload
