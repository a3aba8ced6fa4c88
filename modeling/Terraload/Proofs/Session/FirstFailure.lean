import Terraload.Proofs.FileSystem.Links
import Terraload.Proofs.Session.Edit
import Terraload.Proofs.Wildcard
/-!
A call that loads the matches of a pattern goes through them in order. It stores each up to the
first that cannot be read or parsed, raises the failure of this one, and looks at none behind it.
-/
namespace Terraload

open Terraload.Path

variable {config : Config} {fs fs' : FileSystem} {path key : Text} {d : Document} {bytes : Bytes}
  {f : Failure} {s : Session}

inductive Fails (config : Config) (fs : FileSystem) (path : Text) : Failure → Prop
  | unreadable {e : SystemError} (h : fs.read path = .error (.system e)) :
      Fails config fs path (.load (.cannotOpen path (some e)))
  | rejected {bytes : Bytes} {r : Rejection} (hread : fs.read path = .ok bytes)
      (hparse : config.templateParser.parse bytes = .rejected r) :
      Fails config fs path (.load (.unparsable path r.reason (some r)))
  | broken {bytes : Bytes} {b : Breakdown} (hread : fs.read path = .ok bytes)
      (hparse : config.templateParser.parse bytes = .broken b) :
      Fails config fs path (.broken b)

theorem Config.find_of_paths {deep : Bool} {p : Text} {found : List Text}
    (hlevels : Glob.levels fs deep p ≤ config.searchLimit) (h : Glob.paths fs deep p = .ok found) :
    config.find fs deep p = .ok found := by
  rw [Config.find, if_neg (Nat.not_lt.mpr hlevels), h]

structure LoadedFile where
  path : Text
  document : Document
  content : Bytes

def LoadedFile.Stored (config : Config) (fs : FileSystem) (r : LoadedFile) : Prop :=
  Edit.Stores config fs r.path r.document r.content

theorem Fails.of_read (h : Fails config fs path f) (hread : fs'.read path = fs.read path) :
    Fails config fs' path f := by
  cases h with
  | unreadable h => exact .unreadable (hread.trans h)
  | rejected h hparse => exact .rejected (hread.trans h) hparse
  | broken h hparse => exact .broken (hread.trans h) hparse

theorem LoadedFile.Stored.of_read {r : LoadedFile} (h : r.Stored config fs)
    (hread : fs'.read r.path = fs.read r.path) : r.Stored config fs' :=
  ⟨hread.trans h.read, h.parse⟩

/-- Every path without a foreign code point is read as a file that is stored, or fails. -/
theorem stored_or_fails (config : Config) (fs : FileSystem) (h : ∀ a ∈ path, ¬ Foreign a) :
    (∃ d bytes, Edit.Stores config fs path d bytes) ∨ ∃ f, Fails config fs path f := by
  cases hread : fs.read path with
  | error f =>
    have hcode : path.all Encoding.encodable = true :=
      List.all_eq_true.mpr fun a ha => (Bool.eq_false_or_eq_true _).resolve_right (h a ha ∘ .inr)
    obtain ⟨e, rfl⟩ := FileSystem.system_of_read (fun hnul => h _ hnul (.inl rfl)) hcode hread
    exact .inr ⟨_, .unreadable hread⟩
  | ok bytes =>
    cases hparse : config.templateParser.parse bytes with
    | rejected r => exact .inr ⟨_, .rejected hread hparse⟩
    | broken b => exact .inr ⟨_, .broken hread hparse⟩
    | document d => exact .inl ⟨d, bytes, hread, hparse⟩

namespace Session

def fileEntry (path key : Text) (level : Level) (event : String) (more : List (String × Value)) :
    LogEntry :=
  .of level event ([("file_path", .text path), ("file_key", .text key)] ++ more)

def storedLog (key : Text) (r : LoadedFile) : List LogEntry :=
  [fileEntry r.path key .info "loading_hcl_file" [],
    fileEntry r.path key .debug "hcl_file_loaded" [("size_bytes", .integer r.content.length)]]

def failedLog (path key : Text) (f : Failure) : List LogEntry :=
  fileEntry path key .info "loading_hcl_file" [] :: match f with
    | .load (.cannotOpen _ (some e)) =>
      [fileEntry path key .error "file_read_failed" [("error", .text e.message)]]
    | .load (.unparsable _ reason _) =>
      [fileEntry path key .error "hcl_parse_failed" [("error", .text reason)]]
    | _ => []

theorem loadFile_of_stored {r : LoadedFile} (h : r.Stored config fs) (key : Text) (s : Session) :
    loadFile config fs r.path key s =
      ⟨{ s with store := s.store.put key r.document r.content }, storedLog key r, none⟩ := by
  simp only [loadFile, h.read, h.parse]
  rfl

theorem loadFile_of_fails (h : Fails config fs path f) (key : Text) (s : Session) :
    loadFile config fs path key s = ⟨s, failedLog path key f, some f⟩ := by
  cases h with
  | unreadable h => simp only [loadFile, h]; rfl
  | rejected h hparse => simp only [loadFile, h, hparse]; rfl
  | broken h hparse => simp only [loadFile, h, hparse]; rfl

end Session

/-- What a call loads: the matches of a pattern, each under a key, which are counted; and the
entries it opens with. -/
structure Selection where
  deep : Bool
  pattern : Text
  key : Text → Text
  counted : Nat → Metrics → Metrics
  opening : List LogEntry

def Selection.templates (pattern : Text) : Selection where
  deep := false
  pattern := pattern
  key := Session.templateKey
  counted n m := { m with templatesLoaded := m.templatesLoaded + n }
  opening := []

def Selection.module (settings : Settings) (key source : Text) : Selection where
  deep := true
  pattern := Session.modulePattern settings (settings.modulePath key)
  key := Session.moduleFileKey (settings.modulePath key) source
  counted n m := { m with moduleFilesLoaded := m.moduleFilesLoaded + n }
  opening := [.of .info "loading_module"
    [("module_source", .text source), ("module_key", .text key)]]

/-- The calls that load the matches of a pattern: those for a pattern without a NUL, and those for a
module whose directory is there. -/
inductive Call.Selects (config : Config) (fs : FileSystem) : Call → Selection → Prop
  | template {pattern : Text} (h : nulMark ∉ pattern) :
      Selects config fs (.template pattern) (.templates pattern)
  | moduleFiles {key source : Text} (h : fs.exists? (config.settings.modulePath key) = true) :
      Selects config fs (.moduleFiles key source) (.module config.settings key source)

def Selection.store (sel : Selection) (s : Session) (rows : List LoadedFile) : Session :=
  { s with
    store := rows.foldl (fun t r => t.put (sel.key r.path) r.document r.content) s.store
    metrics := sel.counted rows.length s.metrics }

namespace Session

variable {sel : Selection} {count : Metrics → Metrics} {rows : List LoadedFile}

structure Counts (count : Metrics → Metrics) (counted : Nat → Metrics → Metrics) : Prop where
  zero : ∀ m, counted 0 m = m
  succ : ∀ n m, counted (n + 1) m = counted n (count m)

theorem loadFiles_stored (hcount : Counts count sel.counted)
    (h : ∀ r ∈ rows, r.Stored config fs) (rest : List Text) (s : Session) :
    loadFiles config fs count ((rows.map (·.path) ++ rest).map fun p => (p, sel.key p)) s =
      (loadFiles config fs count (rest.map fun p => (p, sel.key p)) (sel.store s rows)).after
        (rows.flatMap fun r => storedLog (sel.key r.path) r) := by
  induction rows generalizing s with
  | nil =>
    have hstore : sel.store s [] = s := by simp [Selection.store, hcount.zero]
    rw [hstore]
    rfl
  | cons r rows ih =>
    obtain ⟨hr, hrows⟩ := List.forall_mem_cons.mp h
    simp only [List.map_cons, List.cons_append, loadFiles, loadFile_of_stored hr]
    rw [ih hrows]
    simp only [Selection.store, Step.after, List.foldl_cons, List.length_cons, hcount.succ,
      List.flatMap_cons, List.append_assoc]

theorem loadFiles_failed (h : Fails config fs path f) (after : List Text) (s : Session) :
    loadFiles config fs count ((path :: after).map fun p => (p, sel.key p)) s =
      ⟨s, failedLog path (sel.key path) f, some f⟩ := by
  simp only [List.map_cons, loadFiles, loadFile_of_fails h]

end Session

inductive FirstFailure (config : Config) (fs : FileSystem) : List Text → List LoadedFile →
    Option (Text × Failure) → Prop
  | none {rows : List LoadedFile} (h : ∀ r ∈ rows, r.Stored config fs) :
      FirstFailure config fs (rows.map (·.path)) rows none
  | some {rows : List LoadedFile} {path : Text} {f : Failure} (after : List Text)
      (h : ∀ r ∈ rows, r.Stored config fs) (hpath : Fails config fs path f) :
      FirstFailure config fs (rows.map (·.path) ++ path :: after) rows (some (path, f))

theorem exists_firstFailure (config : Config) (fs : FileSystem) {paths : List Text}
    (h : ∀ p ∈ paths, ∀ a ∈ p, ¬ Foreign a) : ∃ rows failed, FirstFailure config fs paths rows failed := by
  induction paths with
  | nil => exact ⟨[], none, .none (List.forall_mem_nil _)⟩
  | cons path paths ih =>
    obtain ⟨hpath, hpaths⟩ := List.forall_mem_cons.mp h
    obtain ⟨d, bytes, hstores⟩ | ⟨f, hfails⟩ := stored_or_fails config fs hpath
    · obtain ⟨rows, failed, hrest⟩ := ih hpaths
      have hrow : LoadedFile.Stored config fs ⟨path, d, bytes⟩ := hstores
      cases hrest with
      | none hrows =>
        exact ⟨⟨path, d, bytes⟩ :: rows, none, .none (List.forall_mem_cons.mpr ⟨hrow, hrows⟩)⟩
      | some after hrows hfails =>
        exact ⟨⟨path, d, bytes⟩ :: rows, _,
          .some after (List.forall_mem_cons.mpr ⟨hrow, hrows⟩) hfails⟩
    · exact ⟨[], some (path, f), .some paths (List.forall_mem_nil _) hfails⟩

def opened (rows : List LoadedFile) (failed : Option (Text × Failure)) : List Text :=
  rows.map (·.path) ++ (failed.map (·.1)).toList

theorem FirstFailure.of_read {paths : List Text} {rows : List LoadedFile}
    {failed : Option (Text × Failure)} (h : FirstFailure config fs paths rows failed)
    (hread : ∀ p ∈ opened rows failed, fs'.read p = fs.read p) :
    FirstFailure config fs' paths rows failed := by
  have hrow {r : LoadedFile} (hr : r ∈ rows) : fs'.read r.path = fs.read r.path :=
    hread r.path (List.mem_append_left _ (List.mem_map_of_mem hr))
  cases h with
  | none hrows => exact .none fun r hr => (hrows r hr).of_read (hrow hr)
  | some after hrows hfails =>
    exact .some after (fun r hr => (hrows r hr).of_read (hrow hr))
      (hfails.of_read (hread _ (List.mem_append_right _ (by simp))))

namespace Session

variable {sel : Selection} {count : Metrics → Metrics} {rows : List LoadedFile}
  {paths : List Text} {failed : Option (Text × Failure)}

def filesLog (sel : Selection) (rows : List LoadedFile) (failed : Option (Text × Failure)) :
    List LogEntry :=
  rows.flatMap (fun r => storedLog (sel.key r.path) r) ++
    failed.toList.flatMap fun x => failedLog x.1 (sel.key x.1) x.2

theorem loadFiles_eq (hcount : Counts count sel.counted)
    (h : FirstFailure config fs paths rows failed) (s : Session) :
    loadFiles config fs count (paths.map fun p => (p, sel.key p)) s =
      ⟨sel.store s rows, filesLog sel rows failed, failed.map (·.2)⟩ := by
  cases h with
  | none hrows =>
    have hstored := loadFiles_stored hcount hrows [] s
    rw [List.append_nil] at hstored
    rw [hstored]
    simp [loadFiles, Step.after, filesLog]
  | some after hrows hfails =>
    rw [loadFiles_stored hcount hrows, loadFiles_failed hfails]
    simp [Step.after, filesLog]

theorem counts_templates (pattern : Text) :
    Counts Metrics.recordTemplate (Selection.templates pattern).counted where
  zero m := rfl
  succ n m := by
    simp [Selection.templates, Metrics.recordTemplate, Nat.add_assoc, Nat.add_comm 1]

theorem counts_module (settings : Settings) (key source : Text) :
    Counts Metrics.recordModuleFile (Selection.module settings key source).counted where
  zero m := rfl
  succ n m := by
    simp [Selection.module, Metrics.recordModuleFile, Nat.add_assoc, Nat.add_comm 1]

/-- Where loading files does not fail, all of them are stored. -/
theorem exists_rows {key : Text → Text}
    (h : (loadFiles config fs count (paths.map fun p => (p, key p)) s).failure = none) :
    ∃ rows : List LoadedFile, paths = rows.map (·.path) ∧ ∀ r ∈ rows, r.Stored config fs := by
  induction paths generalizing s with
  | nil => exact ⟨[], rfl, List.forall_mem_nil _⟩
  | cons path paths ih =>
    rw [List.map_cons, loadFiles] at h
    obtain ⟨log, f, hload⟩ | ⟨bytes, d, log, hstores, hload⟩ :=
      loadFile_cases config fs path (key path)
    · simp [hload] at h
    · simp only [hload] at h
      obtain ⟨rows, rfl, hrows⟩ := ih h
      have hrow : LoadedFile.Stored config fs ⟨path, d, bytes⟩ := hstores
      exact ⟨⟨path, d, bytes⟩ :: rows, rfl, List.forall_mem_cons.mpr ⟨hrow, hrows⟩⟩

/-- Where loading what a pattern finds does not fail, it is stored in ascending order. -/
theorem stored_of_loadFiles (hcount : Counts count sel.counted)
    (hfind : config.find fs sel.deep sel.pattern = .ok paths)
    (h : (loadFiles config fs count (paths.map fun p => (p, sel.key p)) s).failure = none) :
    ∃ rows : List LoadedFile, Glob.paths fs sel.deep sel.pattern = .ok (rows.map (·.path)) ∧
      (∀ r ∈ rows, r.Stored config fs) ∧ (rows.Pairwise fun a b => a.path.le b.path = true) ∧
      (loadFiles config fs count (paths.map fun p => (p, sel.key p)) s).session =
        sel.store s rows := by
  obtain ⟨rows, rfl, hrows⟩ := exists_rows h
  have hpaths := (Config.find_eq_ok.mp hfind).2
  refine ⟨rows, hpaths, hrows, List.pairwise_map.mp (Glob.paths_sorted hpaths), ?_⟩
  rw [loadFiles_eq hcount (.none hrows)]

theorem loadTemplate_of_find {pattern : Text} (h : config.find fs false pattern = .ok paths)
    (s : Session) : loadTemplate config fs pattern s = loadFiles config fs Metrics.recordTemplate
      (paths.map fun p => (p, (Selection.templates pattern).key p)) s := by
  simp only [loadTemplate, h]
  rfl

end Session

open Session

variable {c : Call} {sel : Selection}

theorem Call.Selects.searchable (h : c.Selects config fs sel) : Glob.Searchable sel.pattern := by
  cases h with
  | template h => exact Glob.searchable_of_notMem h
  | @moduleFiles key source h =>
    have hdirectory : nulMark ∉ Wildcard.escape (config.settings.modulePath key) ++ text "/" := by
      rw [List.mem_append, not_or]
      exact ⟨Wildcard.notMem_escape (by decide) (by decide) (FileSystem.notMem_of_exists? h),
        by decide⟩
    have hpattern : modulePattern config.settings (config.settings.modulePath key) =
        Wildcard.escape (config.settings.modulePath key) ++ text "/" ++
          .char '*' :: (text "*/*." ++ config.settings.templateExtension) := by
      simp [modulePattern, text, Text.ofChars]
    rw [Selection.module, hpattern]
    exact Glob.searchable_append hdirectory

theorem Call.Selects.exists_loadFiles (h : c.Selects config fs sel) {paths : List Text}
    (hfind : config.find fs sel.deep sel.pattern = .ok paths) :
    ∃ count, Counts count sel.counted ∧ ∀ s, c.run config fs s =
      (loadFiles config fs count (paths.map fun p => (p, sel.key p)) s).after sel.opening := by
  cases h with
  | @template pattern h => exact ⟨_, counts_templates pattern, loadTemplate_of_find hfind⟩
  | @moduleFiles key source h =>
    refine ⟨_, counts_module config.settings key source, fun s => ?_⟩
    have hfound : config.find fs true
        (modulePattern config.settings (config.settings.modulePath key)) = .ok paths := hfind
    simp only [Call.run, loadModule, h, hfound]
    rfl

theorem Call.Selects.run (h : c.Selects config fs sel) {paths : List Text}
    {rows : List LoadedFile} {failed : Option (Text × Failure)}
    (hfind : config.find fs sel.deep sel.pattern = .ok paths)
    (hfirst : FirstFailure config fs paths rows failed) (s : Session) :
    c.run config fs s =
      ⟨sel.store s rows, sel.opening ++ filesLog sel rows failed, failed.map (·.2)⟩ := by
  obtain ⟨count, hcount, hrun⟩ := h.exists_loadFiles hfind
  rw [hrun, loadFiles_eq hcount hfirst]
  rfl

/-- A search breaks off: it would go down too many levels, or the directory that it starts in cannot
be encoded. -/
inductive BreaksOff (config : Config) (fs : FileSystem) (sel : Selection) : Failure → Prop
  | tooDeep (h : config.searchLimit < Glob.levels fs sel.deep sel.pattern) :
      BreaksOff config fs sel (.broken .tooDeep)
  | unencodable {d : Text} (hstart : Glob.start? (sel.pattern.length + 1) sel.pattern = some d)
      (h : d.all Encoding.encodable = false) : BreaksOff config fs sel (.unencodable d)

theorem Call.Selects.breaksOff (h : c.Selects config fs sel)
    (hfind : config.find fs sel.deep sel.pattern = .error f) : BreaksOff config fs sel f := by
  unfold Config.find at hfind
  split at hfind
  next hdeep =>
    cases hfind
    exact .tooDeep hdeep
  split at hfind
  next u hu =>
    cases hfind
    have hunlisted := Glob.paths_eq_error.mp hu
    obtain hnone | ⟨d, hstart, ⟨-, hnul⟩ | ⟨hsome, hd⟩⟩ := Glob.unlisted?_cases fs sel.pattern
    · cases hnone.symm.trans hunlisted
    · obtain ⟨hinitial, hplain⟩ := Glob.start?_plain hstart
      exact absurd hnul (h.searchable d hinitial hplain)
    · cases hsome.symm.trans hunlisted
      exact .unencodable hstart hd
  · cases hfind

theorem Call.Selects.run_of_error (h : c.Selects config fs sel)
    (hfind : config.find fs sel.deep sel.pattern = .error f) (s : Session) :
    c.run config fs s = ⟨s, sel.opening, some f⟩ := by
  cases h with
  | @template pattern h =>
    have hfound : config.find fs false pattern = .error f := hfind
    simp only [Call.run, loadTemplate, hfound]
    rfl
  | @moduleFiles key source h =>
    have hfound : config.find fs true
        (modulePattern config.settings (config.settings.modulePath key)) = .error f := hfind
    simp only [Call.run, loadModule, h, hfound]
    rfl

/-- A call that loads the matches of a pattern finds them in ascending order, unless the search breaks
off, which leaves the session as it was. It stores them in this order, each under its key, and counts
them, up to the first that fails; then it raises the failure of this one, which names the path that
was found. Its entries are those of the files it has opened, and whatever other files hold, it does
the same. -/
theorem Call.stops_at_first_failure (hfs : fs.Nameable) (hcall : c.Selects config fs sel)
    (s : Session) :
    (∃ f, BreaksOff config fs sel f ∧ c.run config fs s = ⟨s, sel.opening, some f⟩) ∨
    ∃ (paths : List Text) (rows : List LoadedFile) (failed : Option (Text × Failure)),
      config.find fs sel.deep sel.pattern = .ok paths ∧
      (paths.Pairwise fun a b => a.le b = true) ∧
      FirstFailure config fs paths rows failed ∧
      c.run config fs s =
        ⟨sel.store s rows, sel.opening ++ filesLog sel rows failed, failed.map (·.2)⟩ ∧
      ∀ fs' : FileSystem, c.Selects config fs' sel →
        config.find fs' sel.deep sel.pattern = .ok paths →
        (∀ p ∈ opened rows failed, fs'.read p = fs.read p) →
        c.run config fs' s = c.run config fs s := by
  cases hfind : config.find fs sel.deep sel.pattern with
  | error f => exact .inl ⟨f, hcall.breaksOff hfind, hcall.run_of_error hfind s⟩
  | ok paths =>
    have hpaths := (Config.find_eq_ok.mp hfind).2
    obtain ⟨rows, failed, hfirst⟩ := exists_firstFailure config fs fun p hp a ha hforeign =>
      Glob.notMem_of_paths (hfs.excludes hforeign) hforeign hpaths hp ha
    have hrun := hcall.run hfind hfirst s
    refine .inr ⟨paths, rows, failed, rfl, Glob.paths_sorted hpaths, hfirst, hrun, ?_⟩
    intro fs' hcall' hfind' hread
    rw [hrun, hcall'.run hfind' (hfirst.of_read hread)]

def brokenSecond : FileSystem :=
  (((FileSystem.empty []).write (text "a.tf") (Encoding.encode (text "a = 1\n"))).write
    (text "b.tf") (Encoding.encode (text "b = \n"))).write
    (text "c.tf") (Encoding.encode (text "c = 1\n"))

theorem nameable_brokenSecond : brokenSecond.Nameable := ⟨by decide, by decide⟩

theorem find_brokenSecond : (Config.standard .default).find brokenSecond false (text "*.tf") =
    .ok [text "a.tf", text "b.tf", text "c.tf"] :=
  Config.find_of_paths (by decide +kernel) (Glob.paths_of_search (by decide +kernel) rfl
    (by decide +kernel) (by decide +kernel))

theorem Call.stops_at_first_failure_on_broken_second :
    let config := Config.standard .default
    let call := Call.template (text "*.tf")
    let sel := Selection.templates (text "*.tf")
    let step := call.run config brokenSecond Session.empty
    brokenSecond.Nameable ∧ call.Selects config brokenSecond sel ∧
      (step.session.store.keys, step.session.metrics.templatesLoaded) = ([text "a.tf"], 1) ∧
      ((∃ f, BreaksOff config brokenSecond sel f ∧ step = ⟨Session.empty, sel.opening, some f⟩) ∨
      ∃ (paths : List Text) (rows : List LoadedFile) (failed : Option (Text × Failure)),
        config.find brokenSecond sel.deep sel.pattern = .ok paths ∧
        (paths.Pairwise fun a b => a.le b = true) ∧
        FirstFailure config brokenSecond paths rows failed ∧
        step = ⟨sel.store Session.empty rows, sel.opening ++ filesLog sel rows failed,
          failed.map (·.2)⟩ ∧
        ∀ fs' : FileSystem, call.Selects config fs' sel →
          config.find fs' sel.deep sel.pattern = .ok paths →
          (∀ p ∈ opened rows failed, fs'.read p = brokenSecond.read p) →
          call.run config fs' Session.empty = step) := by
  have hcall : Call.Selects (.standard .default) brokenSecond (.template (text "*.tf"))
      (.templates (text "*.tf")) := .template (by decide)
  have hstep : let step := Session.empty.loadTemplate (.standard .default) brokenSecond (text "*.tf")
      (step.session.store.keys, step.session.metrics.templatesLoaded) = ([text "a.tf"], 1) := by
    simp only [Session.loadTemplate, find_brokenSecond]
    decide +kernel
  exact ⟨nameable_brokenSecond, hcall, hstep,
    Call.stops_at_first_failure nameable_brokenSecond hcall Session.empty⟩

def stars : Nat → Text
  | 0 => text "*"
  | n + 1 => stars n ++ text "/*"

theorem stars_ends (n : Nat) : ∃ p, stars n = p ++ text "*" := by
  cases n with
  | zero => exact ⟨[], rfl⟩
  | succ n => exact ⟨stars n ++ text "/", by simp [stars, text, Text.ofChars]⟩

theorem split_stars (n : Nat) : split (stars (n + 1)) = (stars n, text "*") := by
  obtain ⟨p, hp⟩ := stars_ends n
  have hstars : stars (n + 1) = stars n ++ slash :: text "*" := rfl
  rw [hstars]
  refine split_name ?_ ?_ (by decide)
  · rw [hp]
    exact List.append_ne_nil_of_right_ne_nil _ (by decide)
  · rw [hp, List.getLast?_append_of_ne_nil _ (by decide)]
    decide

theorem isMagic_stars (n : Nat) : Wildcard.isMagic (stars n) = true := by
  obtain ⟨p, hp⟩ := stars_ends n
  rw [hp, Wildcard.isMagic_append]
  exact Bool.or_true _

theorem length_stars (n : Nat) : n < (stars n).length := by
  induction n with
  | zero => decide
  | succ n ih =>
    have htwo : (text "/*").length = 2 := rfl
    rw [stars, List.length_append, htwo]
    omega

theorem nul_notMem_stars (n : Nat) : nulMark ∉ stars n := by
  induction n with
  | zero => decide
  | succ n ih =>
    rw [stars, List.mem_append, not_or]
    exact ⟨ih, by decide⟩

namespace Glob

theorem levelsFrom_stars (n : Nat) (directories : Bool) (limit : Nat) :
    levelsFrom fs false (n + 1 + limit) directories (stars n) = n + 1 := by
  induction n generalizing directories with
  | zero =>
    have hsplit : split (stars 0) = ([], text "*") := by decide
    have hinner : levelsFrom fs false limit true [] = 0 := by cases limit <;> rfl
    rw [Nat.add_comm, levelsFrom, hsplit]
    simp [isMagic_stars, hinner]
  | succ n ih =>
    have hne : stars n ≠ stars (n + 1) := by simp [stars, text, Text.ofChars]
    rw [Nat.add_right_comm, levelsFrom, split_stars]
    simp [isMagic_stars, hne, ih]

/-- A search goes down one level for each star. -/
theorem levels_stars (fs : FileSystem) (n : Nat) : levels fs false (stars n) = n + 1 := by
  obtain ⟨limit, hlimit⟩ := Nat.exists_eq_add_of_lt (length_stars n)
  have hlength : (stars n).length + 1 = n + 1 + (limit + 1) := by omega
  rw [levels, hlength, levelsFrom_stars]

theorem start?_stars (n limit : Nat) : start? (n + 1 + limit) (stars n) = some [] := by
  induction n with
  | zero =>
    rw [Nat.add_comm]
    exact start?_of_plain limit (by decide) (by decide)
  | succ n ih =>
    rw [Nat.add_right_comm, start?_of_magic _ (by rw [split_stars]; exact isMagic_stars n),
      split_stars, ih]

/-- No pattern of stars finds anything where nothing is. -/
theorem search_stars (n : Nat) (directories : Bool) (limit : Nat) :
    search (FileSystem.empty []) false limit directories (stars n) = [] := by
  induction n generalizing directories limit with
  | zero =>
    cases limit with
    | zero => rfl
    | succ limit =>
      rw [search_part limit (by decide) (by decide)]
      cases directories <;> decide
  | succ n ih =>
    cases limit with
    | zero => rfl
    | succ limit =>
      have hne : stars n ≠ [] := List.ne_nil_of_length_pos (by have := length_stars n; omega)
      rw [search_rows limit (isMagic_stars _) (by rwa [split_stars]),
        parents_of_magic _ _ _ (by rw [split_stars]; exact isMagic_stars n), split_stars, ih]
      rfl

theorem paths_stars (n : Nat) : paths (FileSystem.empty []) false (stars n) = .ok [] := by
  obtain ⟨limit, hlimit⟩ := Nat.exists_eq_add_of_lt (length_stars n)
  have hlength : (stars n).length + 1 = n + 1 + (limit + 1) := by omega
  have hlisted : unlisted? (FileSystem.empty []) (stars n) = none := by
    rw [unlisted?, hlength, start?_stars]
    decide
  simp [paths, hlisted, search_stars]

end Glob

/-- Nothing is there, but a pattern with too many stars breaks off the search. -/
theorem Call.raises_of_stars (config : Config) (n : Nat) (h : config.searchLimit ≤ n) :
    nulMark ∉ stars n ∧ Glob.paths (FileSystem.empty []) false (stars n) = .ok [] ∧
      (Call.run config (FileSystem.empty []) Session.empty (.template (stars n))).failure =
        some (.broken .tooDeep) := by
  have hfind : config.find (FileSystem.empty []) false (stars n) = .error (.broken .tooDeep) := by
    rw [Config.find, Glob.levels_stars, if_pos (Nat.lt_succ_of_le h)]
  exact ⟨nul_notMem_stars n, Glob.paths_stars n, by simp only [Call.run, loadTemplate, hfind]⟩

theorem Call.raises_without_match :
    nulMark ∉ stars 6000 ∧ Glob.paths (FileSystem.empty []) false (stars 6000) = .ok [] ∧
      (Call.run (.standard .default) (FileSystem.empty []) Session.empty
        (.template (stars 6000))).failure = some (.broken .tooDeep) :=
  Call.raises_of_stars (.standard .default) 6000 (by decide)

end Terraload
