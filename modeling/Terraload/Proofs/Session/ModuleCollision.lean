import Terraload.Proofs.FileSystem.Distinct
import Terraload.Proofs.Session.ModuleKey
/-!
Files of a module that fall on one key. The path of the module's directory is taken out of all paths
in the same way, so that two of them make one key only where backslashes become slashes; the file
that comes last is the one that stays. Where no path has a backslash all files stay.
-/
namespace Terraload

open Terraload.Path FileSystem Glob

variable {config : Config} {fs : FileSystem} {d e r t part key source : Text} {s : Session}

theorem Text.eraseFirst_of_not_infix (h : ¬ part <:+: t) : t.eraseFirst part = t := by
  induction t with
  | nil =>
    unfold eraseFirst
    rw [if_neg fun hfront => h (List.isPrefixOf_iff_prefix.mp hfront).isInfix]
  | cons a t ih =>
    unfold eraseFirst
    rw [if_neg fun hfront => h (List.isPrefixOf_iff_prefix.mp hfront).isInfix]
    dsimp only
    rw [ih fun hinfix => h (List.infix_cons hinfix)]

/-- A path in which nothing is taken for the path of a directory but this itself: the search spells
the directory as it is given, or no backslash of the path becomes a slash. -/
def Steady (d path : Text) : Prop := Kept d ∨ backslash ∉ path

/-- Where a search draws slashes together the path of the directory is in none of the paths that are
found. -/
theorem not_infix_of_doubled (he : e.getLast? ≠ some slash) (hr : Apart r)
    (h : doubled e < doubled d) : ¬ d <:+: e ++ slash :: r := by
  intro hinfix
  have hle := doubled_le_of_infix hinfix
  rw [doubled_of_apart he hr] at hle
  omega

namespace SearchedAs

theorem last_of_ne (h : SearchedAs d e) (hne : e ≠ d) : e.getLast? ≠ some slash := by
  cases h with
  | slashes => exact absurd rfl hne
  | trimmed k h => exact h.trimmed.2.last

/-- Behind one directory keys are made in one way, by putting the same in front of each path. -/
theorem exists_front (h : SearchedAs d e) (source : Text) : ∃ front, ∀ r, Apart r →
    Steady d (e ++ slash :: r) →
    Session.moduleFileKey d source (e ++ slash :: r) = front ++ normalizeKey r := by
  by_cases heq : e = d
  · subst heq
    refine ⟨source ++ [slash], fun r _ _ => ?_⟩
    rw [moduleFileKey_append, List.append_assoc]
    rfl
  obtain hsame | hslash | hdoubled := h.doubled_cases
  · exact absurd hsame heq
  · refine ⟨source, fun r _ _ => ?_⟩
    have hpath : e ++ slash :: r = d ++ r := by simp [hslash]
    rw [hpath, moduleFileKey_append]
  · refine ⟨source ++ (e ++ [slash]), fun r hr hsteady => ?_⟩
    have hpath : backslash ∉ e ++ slash :: r :=
      hsteady.resolve_left fun hkept => heq (h.eq_iff_kept.mpr hkept)
    have hd : backslash ∉ d := fun hmem =>
      (h.mem_or hmem).elim (by decide) fun hmem => hpath (List.mem_append_left _ hmem)
    have hback : backslash ∉ r := fun hmem =>
      hpath (List.mem_append_right _ (List.mem_cons_of_mem _ hmem))
    have hinfix := not_infix_of_doubled (h.last_of_ne heq) hr hdoubled
    rw [Session.moduleFileKey, normalizeKey_of_notMem hd, normalizeKey_of_notMem hpath,
      normalizeKey_of_notMem hback, Text.eraseFirst_of_not_infix hinfix]
    simp

end SearchedAs

/-- Two paths that the pattern of a module finds make one key exactly if they are the same with
slashes for backslashes. -/
theorem moduleFileKey_eq (hfs : fs.Named) {settings : Settings} {p p' : Text} {ps : List Text}
    (hps : Glob.paths fs true (Session.modulePattern settings d) = .ok ps) (hp : p ∈ ps)
    (hp' : p' ∈ ps) (hsteady : Steady d p) (hsteady' : Steady d p') (source : Text) :
    Session.moduleFileKey d source p = Session.moduleFileKey d source p' ↔
      normalizeKey p = normalizeKey p' := by
  obtain ⟨e, r, hspelled, hr, -, rfl⟩ := Session.searchedAs_of_paths hfs hps hp
  obtain ⟨e', r', hspelled', hr', -, rfl⟩ := Session.searchedAs_of_paths hfs hps hp'
  obtain rfl := hspelled.unique hspelled'
  obtain ⟨front, hfront⟩ := hspelled.exists_front source
  rw [hfront r hr hsteady, hfront r' hr' hsteady', List.append_cancel_left_eq, normalizeKey_behind,
    normalizeKey_behind, List.append_cancel_left_eq, List.cons_inj_right]

/-- What is stored for a path is settled by the file system. -/
theorem LoadedFile.Stored.eq {a b : LoadedFile} (ha : a.Stored config fs) (hb : b.Stored config fs)
    (h : a.path = b.path) : a = b := by
  obtain ⟨path, document, content⟩ := a
  obtain ⟨path', document', content'⟩ := b
  obtain rfl : path = path' := h
  obtain ⟨hread, hparse⟩ := ha
  obtain ⟨hread', hparse'⟩ := hb
  cases hread.symm.trans hread'
  cases hparse.symm.trans hparse'
  rfl

def LoadedFile.keyIn (settings : Settings) (key source : Text) (a : LoadedFile) : Text :=
  Session.moduleFileKey (settings.modulePath key) source a.path

namespace Session

structure ModuleStored (config : Config) (fs : FileSystem) (key source : Text) (s left : Session)
    (rows : List LoadedFile) : Prop where
  found : Glob.paths fs true (modulePattern config.settings (config.settings.modulePath key)) =
    .ok (rows.map (·.path))
  stored : ∀ a ∈ rows, a.Stored config fs
  /-- Each match is counted, and nothing but this and the store is changed. -/
  counted : left = { s with
    store := left.store
    metrics := { s.metrics with moduleFilesLoaded := s.metrics.moduleFilesLoaded + rows.length } }
  /-- Two files have one key exactly if their paths are the same with slashes for backslashes. -/
  shared : ∀ a ∈ rows, ∀ b ∈ rows, Steady (config.settings.modulePath key) a.path →
    Steady (config.settings.modulePath key) b.path →
    (a.keyIn config.settings key source = b.keyIn config.settings key source ↔
      normalizeKey a.path = normalizeKey b.path)
  /-- Under a key stands the last of the files that have it. -/
  last : ∀ k ∈ rows.map (·.keyIn config.settings key source),
    ∃ a ∈ rows, a.keyIn config.settings key source = k ∧
      (∀ b ∈ rows, b.keyIn config.settings key source = k → b.path.le a.path = true) ∧
      left.store.templates.get? k = some a.document ∧ left.store.files.get? k = some a.content
  /-- What stands under another key stays as it was. -/
  others : ∀ k ∉ rows.map (·.keyIn config.settings key source),
    left.store.templates.get? k = s.store.templates.get? k ∧
      left.store.files.get? k = s.store.files.get? k
  /-- Where no path has a backslash, no file is overwritten. -/
  kept : (∀ a ∈ rows, backslash ∉ a.path) → ∀ a ∈ rows,
    (∀ b ∈ rows, b.keyIn config.settings key source = a.keyIn config.settings key source → b = a) ∧
      left.store.templates.get? (a.keyIn config.settings key source) = some a.document ∧
      left.store.files.get? (a.keyIn config.settings key source) = some a.content
  /-- Each file is found once where the extension is part of a name, and then it is its keys that are
  counted. -/
  nodup : slash ∉ config.settings.templateExtension → (rows.map (·.path)).Nodup ∧
    ((∀ a ∈ rows, backslash ∉ a.path) → (rows.map (·.keyIn config.settings key source)).Nodup)

/-- A call for the files of a module that does not fail has stored all that it finds, one file over
another where they share a key. -/
theorem stores_module_files (hfs : fs.Listed) (config : Config) (key source : Text) (s : Session)
    (h : (s.loadModule config fs key source).failure = none) :
    ∃ rows : List LoadedFile,
      ModuleStored config fs key source s (s.loadModule config fs key source).session rows := by
  let sel := Selection.module config.settings key source
  have hcall : Call.Selects config fs (.moduleFiles key source) sel :=
    .moduleFiles (exists_of_loadModule h)
  obtain ⟨rows, hpaths, hrows, hsorted, hleft⟩ := hcall.stored h
  have hstored : (s.loadModule config fs key source).session = sel.store s rows := hleft
  have hshared {a b : LoadedFile} (ha : a ∈ rows) (hb : b ∈ rows)
      (hsteady : Steady (config.settings.modulePath key) a.path)
      (hsteady' : Steady (config.settings.modulePath key) b.path) :
      sel.key a.path = sel.key b.path ↔ normalizeKey a.path = normalizeKey b.path :=
    moduleFileKey_eq hfs.named hpaths (List.mem_map_of_mem ha) (List.mem_map_of_mem hb) hsteady
      hsteady' source
  have hsame (hplain : ∀ a ∈ rows, backslash ∉ a.path) {a b : LoadedFile} (ha : a ∈ rows)
      (hb : b ∈ rows) (heq : sel.key a.path = sel.key b.path) : a = b := by
    have hpath := (hshared ha hb (.inr (hplain a ha)) (.inr (hplain b hb))).mp heq
    rw [normalizeKey_of_notMem (hplain a ha), normalizeKey_of_notMem (hplain b hb)] at hpath
    exact (hrows a ha).eq (hrows b hb) hpath
  have hlast {k : Text} (hk : ∃ a ∈ rows, sel.key a.path = k) :=
    Selection.exists_stored s hsorted hk
  rw [hstored]
  refine ⟨rows, hpaths, hrows, rfl, fun a ha b hb => hshared ha hb, fun k hk => ?last,
    fun k hk => ?others, fun hplain a ha => ?kept, fun hslash => ?nodup⟩
  case last =>
    obtain ⟨a, ha, hkey⟩ := List.mem_map.mp hk
    exact hlast ⟨a, ha, hkey⟩
  case others =>
    exact Selection.store_of_notMem s fun a ha heq => hk (List.mem_map.mpr ⟨a, ha, heq⟩)
  case kept =>
    obtain ⟨b, hb, hkey, -, hget⟩ := hlast ⟨a, ha, rfl⟩
    obtain rfl := hsame hplain hb ha hkey
    exact ⟨fun c hc heq => hsame hplain hc hb heq, hget⟩
  case nodup =>
    have hpattern : sel.pattern = filesPattern _ _ := modulePattern_eq config.settings _
    rw [hpattern] at hpaths
    have hnodup : (rows.map (·.path)).Nodup :=
      nodup_paths hpaths (nodup_search_filesPattern hfs hslash)
    exact ⟨hnodup, fun hplain => hnodup.of_map.map_on fun a ha b hb => hsame hplain ha hb⟩

/-- A module in which the name of one file is the path of another but for a backslash, and one with a
directory of an extension inside another. -/
def collidingModules : FileSystem :=
  (((FileSystem.empty []).write (text ".terraform/modules/a/d/x.tf")
    (Encoding.encode (text "a = 1\n"))).write (text ".terraform/modules/a/d\\x.tf")
    (Encoding.encode (text "a = 2\n"))).write (text ".terraform/modules/b/p.d/q.d/x.tf")
    (Encoding.encode (text "a = 3\n"))

theorem listed_collidingModules : collidingModules.Listed :=
  listed_of_root (by decide +kernel) (by decide +kernel)

theorem paths_collidingModules : Glob.paths collidingModules true
    (modulePattern (Config.standard .default).settings
      ((Config.standard .default).settings.modulePath (text "a"))) =
        .ok [text ".terraform/modules/a/d/x.tf", text ".terraform/modules/a/d\\x.tf"] :=
  Glob.paths_of_search (by decide +kernel) (by decide +kernel) (by decide +kernel)
    (by decide +kernel)

theorem find_collidingModules : (Config.standard .default).find collidingModules true
    (modulePattern (Config.standard .default).settings
      ((Config.standard .default).settings.modulePath (text "a"))) =
        .ok [text ".terraform/modules/a/d/x.tf", text ".terraform/modules/a/d\\x.tf"] :=
  Config.find_of_paths (by decide +kernel) paths_collidingModules

theorem stores_module_files_of_colliding :
    let config := Config.standard .default
    let step := empty.loadModule config collidingModules (text "a") (text "src")
    collidingModules.Listed ∧ step.failure = none ∧ ∃ rows : List LoadedFile,
      ModuleStored config collidingModules (text "a") (text "src") empty step.session rows := by
  intro config step
  have hstep : step.failure = none := by
    simp only [step, config, loadModule, find_collidingModules]
    decide +kernel
  exact ⟨listed_collidingModules, hstep,
    stores_module_files listed_collidingModules config (text "a") (text "src") empty hstep⟩

/-- A file is overwritten by another of its module where backslashes become slashes; and where the
extension has directories in it one file is found and counted twice. -/
theorem module_file_overwritten :
    let config := Config.standard .default
    let step := empty.loadModule config collidingModules (text "a") (text "src")
    let deep := Config.standard { Settings.default with templateExtension := text "d/**/*.tf" }
    let twice := empty.loadModule deep collidingModules (text "b") (text "src")
    Glob.paths collidingModules true
          (modulePattern config.settings (config.settings.modulePath (text "a"))) =
        .ok [text ".terraform/modules/a/d/x.tf", text ".terraform/modules/a/d\\x.tf"] ∧
      (step.failure, step.session.store.files, step.session.metrics.moduleFilesLoaded) =
        (none, [(text "src/d/x.tf", Encoding.encode (text "a = 2\n"))], 2) ∧
      (twice.failure, twice.session.store.keys, twice.session.metrics.moduleFilesLoaded) =
        (none, [text "src/p.d/q.d/x.tf"], 2) := by
  intro config step deep twice
  have hfind : deep.find collidingModules true
      (modulePattern deep.settings (deep.settings.modulePath (text "b"))) =
        .ok [text ".terraform/modules/b/p.d/q.d/x.tf", text ".terraform/modules/b/p.d/q.d/x.tf"] :=
    Config.find_of_paths (by decide +kernel) (Glob.paths_of_search (by decide +kernel)
      (by decide +kernel) (by decide +kernel) (by decide +kernel))
  refine ⟨paths_collidingModules, ?_, ?_⟩
  · simp only [step, config, loadModule, find_collidingModules]
    decide +kernel
  · simp only [twice, loadModule, hfind]
    decide +kernel

end Session

end Terraload
