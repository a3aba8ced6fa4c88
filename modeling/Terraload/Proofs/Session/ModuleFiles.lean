import Terraload.Proofs.FileSystem.Building
import Terraload.Proofs.FileSystem.Cleaning
import Terraload.Proofs.FileSystem.DeepSearch
import Terraload.Proofs.Session.FirstFailure
import Terraload.Proofs.Store
/-!
The files of a module. A call for them that does not fail has stored those below the directory of
the module which are reached by names that are not hidden and have the extension of templates, each
under the source and the names it is reached by.
-/
namespace Terraload

open Terraload.Path FileSystem Glob

variable {config : Config} {fs : FileSystem} {p key source : Text} {q : Place} {node : Node}
  {bytes : Bytes} {s : Session}

theorem exists_last {α : Type} {P : α → Prop} {as : List α} (h : ∃ a ∈ as, P a) :
    ∃ front a back, as = front ++ a :: back ∧ P a ∧ ∀ b ∈ back, ¬ P b := by
  induction as with
  | nil => obtain ⟨a, ha, -⟩ := h; cases ha
  | cons a as ih =>
    by_cases hlater : ∃ b ∈ as, P b
    · obtain ⟨front, b, back, rfl, hb⟩ := ih hlater
      exact ⟨a :: front, b, back, rfl, hb⟩
    · obtain ⟨b, hb, hP⟩ := h
      obtain rfl | hb := List.mem_cons.mp hb
      · exact ⟨[], b, as, rfl, hP, fun c hc hPc => hlater ⟨c, hc, hPc⟩⟩
      · exact absurd ⟨b, hb, hP⟩ hlater

namespace Selection

variable {sel : Selection} {rows back : List LoadedFile} {r : LoadedFile}

theorem notMem_names {α : Type} (f : LoadedFile → α) (h : ∀ r ∈ rows, sel.key r.path ≠ key) :
    key ∉ Members.names (rows.map fun r => (sel.key r.path, f r)) := by
  rw [Members.names, List.map_map, List.mem_map]
  rintro ⟨r, hr, heq⟩
  exact h r hr heq

/-- A key of no file in a row stands for what it stood for. -/
theorem store_of_notMem (s : Session) (h : ∀ r ∈ rows, sel.key r.path ≠ key) :
    (sel.store s rows).store.templates.get? key = s.store.templates.get? key ∧
      (sel.store s rows).store.files.get? key = s.store.files.get? key := by
  simp only [store, Store.foldl_put]
  exact ⟨Members.get?_putAll_of_notMem (notMem_names _ h),
    Members.get?_putAll_of_notMem (notMem_names _ h)⟩

/-- The last file in a row with a key is what the key stands for. -/
theorem store_last (front : List LoadedFile) (s : Session)
    (h : ∀ x ∈ back, sel.key x.path ≠ sel.key r.path) :
    (sel.store s (front ++ r :: back)).store.templates.get? (sel.key r.path) = some r.document ∧
      (sel.store s (front ++ r :: back)).store.files.get? (sel.key r.path) = some r.content := by
  simp only [store, Store.foldl_put, List.map_append, List.map_cons]
  exact ⟨Members.get?_putAll_last _ (notMem_names _ h),
    Members.get?_putAll_last _ (notMem_names _ h)⟩

/-- Of files in the order of their paths, a key stands for the one with the greatest path. -/
theorem exists_stored (s : Session) (hsorted : rows.Pairwise fun a b => a.path.le b.path = true)
    (h : ∃ r ∈ rows, sel.key r.path = key) :
    ∃ last ∈ rows, sel.key last.path = key ∧
      (∀ r ∈ rows, sel.key r.path = key → r.path.le last.path = true) ∧
      (sel.store s rows).store.templates.get? key = some last.document ∧
      (sel.store s rows).store.files.get? key = some last.content := by
  obtain ⟨front, last, back, rfl, rfl, hback⟩ := exists_last h
  refine ⟨last, by simp, rfl, fun r hr hkey => ?_, store_last front s hback⟩
  obtain hfront | hlater := List.mem_append.mp hr
  · exact (List.pairwise_append.mp hsorted).2.2 r hfront last List.mem_cons_self
  obtain rfl | hlater := List.mem_cons.mp hlater
  · exact (Bool.or_self _).symm.trans (Text.le_total _ _)
  · exact absurd hkey (hback r hlater)

end Selection

/-- The path of a directory that modules are in: a relative one, in which no slashes stand side by
side and none at the end. -/
structure ModulesPath (p : Text) : Prop where
  ne_nil : p ≠ []
  relative : Relative p
  single : ¬ [slash, slash] <:+: p
  last : p.getLast? ≠ some slash

theorem ModulesPath.parts_ne_nil (h : ModulesPath p) : [] ∉ parts p := by
  intro hmem
  obtain ⟨before, after, hparts⟩ := List.append_of_mem hmem
  have hp := ofParts_parts p
  rw [hparts] at hp
  by_cases hbefore : before = []
  · by_cases hafter : after = []
    · rw [hbefore, hafter] at hp
      exact h.ne_nil hp.symm
    · rw [hbefore, List.nil_append, ofParts_cons hafter] at hp
      exact h.relative (by rw [← hp]; rfl)
  · rw [ofParts_append hbefore (List.cons_ne_nil _ _)] at hp
    by_cases hafter : after = []
    · rw [hafter] at hp
      exact h.last (by rw [← hp]; simp [ofParts, Text.join])
    · rw [ofParts_cons hafter] at hp
      exact h.single ⟨ofParts before, ofParts after, by rw [← hp]; simp⟩

/-- The directory of a module, as a row of parts. -/
theorem exists_modulePath {settings : Settings} (hdir : ModulesPath settings.moduleDir)
    (hkey : key ≠ []) (hslash : slash ∉ key) :
    ∃ ns, ns ≠ [] ∧ (∀ n ∈ ns, n ≠ [] ∧ slash ∉ n) ∧ settings.modulePath key = ofParts ns := by
  refine ⟨parts settings.moduleDir ++ [key],
    List.append_ne_nil_of_right_ne_nil _ (List.cons_ne_nil _ _), ?_, ?_⟩
  · refine List.forall_mem_append.mpr ⟨fun n hn => ⟨?_, slash_notMem_of_mem_parts hn⟩,
      List.forall_mem_singleton.mpr ⟨hkey, hslash⟩⟩
    rintro rfl
    exact hdir.parts_ne_nil hn
  · have hparts : parts settings.moduleDir ≠ [] := Text.splitOn_ne_nil _ _
    rw [ofParts_append hparts (List.cons_ne_nil _ _), ofParts_parts, Settings.modulePath,
      List.append_assoc]
    rfl

theorem modulePattern_eq (settings : Settings) (d : Text) :
    Session.modulePattern settings d = filesPattern d settings.templateExtension := by
  simp [Session.modulePattern, filesPattern, deepPattern, deepMark, extensionPart, text,
    Text.ofChars, slash]

theorem normalizeKey_append (a b : Text) :
    normalizeKey (a ++ b) = normalizeKey a ++ normalizeKey b := List.map_append

theorem normalizeKey_behind (a b : Text) :
    normalizeKey (a ++ slash :: b) = normalizeKey a ++ slash :: normalizeKey b :=
  normalizeKey_append a _

theorem eraseFirst_append (a b : Text) : (a ++ b).eraseFirst a = b := by
  rw [Text.eraseFirst.eq_def, if_pos (by simp), List.drop_left]

def moduleKey (source : Text) (way : List Text) : Text :=
  source ++ slash :: normalizeKey (ofParts way)

/-- The path of the directory is taken out of the front, wherever else it stands. -/
theorem moduleFileKey_append (d source r : Text) :
    Session.moduleFileKey d source (d ++ r) = source ++ normalizeKey r := by
  rw [Session.moduleFileKey, normalizeKey_append, eraseFirst_append]

theorem moduleFileKey_below (d source : Text) (way : List Text) :
    Session.moduleFileKey d source (d ++ slash :: ofParts way) = moduleKey source way :=
  moduleFileKey_append d source _

structure ModuleFile (fs : FileSystem) (extension : Text) (q : Place) (way : List Text)
    (bytes : Bytes) : Prop where
  reached : Reaches fs q way (.file bytes)
  ending : EndsIn (.char '.' :: extension) way

structure LastModuleFile (fs : FileSystem) (extension : Text) (q : Place) (d source key : Text)
    (way : List Text) (bytes : Bytes) : Prop extends ModuleFile fs extension q way bytes where
  key_eq : moduleKey source way = key
  last : ∀ way' bytes', ModuleFile fs extension q way' bytes' → moduleKey source way' = key →
    (d ++ slash :: ofParts way').le (d ++ slash :: ofParts way) = true

/-- A call that does not fail has stored all that its pattern finds, in ascending order. -/
theorem Call.Selects.stored {c : Call} {sel : Selection} (hcall : c.Selects config fs sel)
    (h : (c.run config fs s).failure = none) :
    ∃ rows : List LoadedFile, Glob.paths fs sel.deep sel.pattern = .ok (rows.map (·.path)) ∧
      (∀ r ∈ rows, r.Stored config fs) ∧ (rows.Pairwise fun a b => a.path.le b.path = true) ∧
      (c.run config fs s).session = sel.store s rows := by
  cases hfind : config.find fs sel.deep sel.pattern with
  | error f =>
    rw [hcall.run_of_error hfind] at h
    cases h
  | ok paths =>
    obtain ⟨count, hcount, hrun⟩ := hcall.exists_loadFiles hfind
    rw [hrun] at h ⊢
    exact Session.stored_of_loadFiles hcount hfind h

/-- A call for a module whose directory is not there fails. -/
theorem Session.exists_of_loadModule (h : (s.loadModule config fs key source).failure = none) :
    fs.exists? (config.settings.modulePath key) = true := by
  by_contra hthere
  rw [Bool.not_eq_true] at hthere
  simp [loadModule, hthere] at h

/-- What is read through the path of something below a directory is what is reached there. -/
theorem node_of_reached (htree : fs.Tree) {d : Text} {way : List Text} (h : Spans fs d q)
    (hlast : d.getLast? ≠ some slash) (hreaches : Reaches fs q way node) (hne : way ≠ [])
    (hread : fs.read (d ++ slash :: ofParts way) = .ok bytes) : node = .file bytes := by
  obtain rfl | ⟨init, n, rfl⟩ := List.eq_nil_or_concat' way
  · exact absurd rfl hne
  · exact node_of_read (locate_reached htree h hlast hreaches) hread

section

variable {settings : Settings} {rows : List LoadedFile}

/-- Where all that the pattern of a module finds is stored, the files of the module are. -/
theorem mem_rows_iff (htree : fs.Tree) (hdir : ModulesPath settings.moduleDir) (hkey : key ≠ [])
    (hslash : slash ∉ key) (hextension : slash ∉ settings.templateExtension)
    (hplain : Wildcard.isMagic settings.templateExtension = false)
    (hfits : fs.FitsBelow (settings.modulePath key))
    (hlocate : fs.locate true (settings.modulePath key) = .ok (q, node))
    (hpaths : Glob.paths fs true (Session.modulePattern settings (settings.modulePath key)) =
      .ok (rows.map (·.path))) (hrows : ∀ r ∈ rows, r.Stored config fs) (path : Text)
    (bytes : Bytes) :
    (∃ r ∈ rows, r.path = path ∧ r.content = bytes) ↔
      ∃ way, ModuleFile fs settings.templateExtension q way bytes ∧
        path = settings.modulePath key ++ slash :: ofParts way := by
  obtain ⟨ns, hne, hs, hdirectory⟩ := exists_modulePath hdir hkey hslash
  rw [modulePattern_eq] at hpaths
  rw [hdirectory] at hfits hlocate hpaths ⊢
  have hspans (hnode : node = .directory) : Spans fs (ofParts ns) q := by
    subst hnode
    exact ⟨htree.leads_of_locate hlocate, fun way => hfits q way hlocate⟩
  have hmem := mem_paths_filesPattern htree hne hs hlocate hspans hextension hplain hpaths
  -- A path that is found is read as the file that the file system has there.
  have hread {way : List Text} {node' : Node} {content : Bytes} (hreaches : Reaches fs q way node')
      (hending : EndsIn (.char '.' :: settings.templateExtension) way)
      (hread : fs.read (ofParts ns ++ slash :: ofParts way) = .ok content) :
      node' = .file content := by
    have hway : way ≠ [] := hending.ne_nil
    have hq := htree.node?_of_below hway hreaches.node_eq
    have hnode : node = .directory :=
      Option.some.inj ((htree.node?_of_locate hlocate).symm.trans hq)
    exact node_of_reached htree (hspans hnode) (getLast?_row hne hs) hreaches hway hread
  constructor
  · rintro ⟨r, hr, rfl, rfl⟩
    obtain ⟨way, node', hreaches, hending, hpath⟩ :=
      (hmem r.path).mp (List.mem_map_of_mem hr)
    have hstored := (hrows r hr).read
    rw [hpath] at hstored
    obtain rfl := hread hreaches hending hstored
    exact ⟨way, ⟨hreaches, hending⟩, hpath⟩
  · rintro ⟨way, ⟨hreaches, hending⟩, rfl⟩
    obtain ⟨r, hr, hpath⟩ :=
      List.mem_map.mp ((hmem _).mpr ⟨way, _, hreaches, hending, rfl⟩)
    have hstored := (hrows r hr).read
    rw [hpath] at hstored
    cases hread hreaches hending hstored
    exact ⟨r, hr, hpath, rfl⟩

end

structure ModuleLoaded (config : Config) (fs : FileSystem) (key source : Text) (s left : Session)
    (q : Place) (rows : List LoadedFile) : Prop where
  /-- The files were stored one after another, each under its key. -/
  rows_eq : left = (Selection.module config.settings key source).store s rows
  /-- They are those of the module and no others. -/
  files : ∀ path bytes, (∃ r ∈ rows, r.path = path ∧ r.content = bytes) ↔
    ∃ way, ModuleFile fs config.settings.templateExtension q way bytes ∧
      path = config.settings.modulePath key ++ slash :: ofParts way
  /-- Under the key of a file stands the last of the files with this key. -/
  keys : ∀ way bytes, ModuleFile fs config.settings.templateExtension q way bytes →
    ∃ way' bytes' d, LastModuleFile fs config.settings.templateExtension q
        (config.settings.modulePath key) source (moduleKey source way) way' bytes' ∧
      config.templateParser.parse bytes' = .document d ∧
      left.store.templates.get? (moduleKey source way) = some d ∧
      left.store.files.get? (moduleKey source way) = some bytes'
  /-- What stands under another key stays as it was. -/
  others : ∀ k, (∀ way bytes, ModuleFile fs config.settings.templateExtension q way bytes →
      moduleKey source way ≠ k) →
    left.store.templates.get? k = s.store.templates.get? k ∧
      left.store.files.get? k = s.store.files.get? k

/-- A call for the files of a module that does not fail has loaded those files and no others. -/
theorem Session.loads_module_files (htree : fs.Tree)
    (hdir : ModulesPath config.settings.moduleDir) (hkey : key ≠ []) (hslash : slash ∉ key)
    (hextension : slash ∉ config.settings.templateExtension)
    (hplain : Wildcard.isMagic config.settings.templateExtension = false)
    (hfits : fs.FitsBelow (config.settings.modulePath key)) (source : Text) (s : Session)
    (h : (s.loadModule config fs key source).failure = none) :
    ∃ (q : Place) (node : Node) (rows : List LoadedFile),
      fs.locate true (config.settings.modulePath key) = .ok (q, node) ∧
      ModuleLoaded config fs key source s (s.loadModule config fs key source).session q rows := by
  have hthere := exists_of_loadModule h
  obtain ⟨⟨q, node⟩, hlocate⟩ := exists?_eq_true.mp hthere
  let sel := Selection.module config.settings key source
  have hcall : Call.Selects config fs (.moduleFiles key source) sel := .moduleFiles hthere
  obtain ⟨rows, hpaths, hrows, hsorted, hleft⟩ := hcall.stored h
  have hmem (path : Text) (bytes : Bytes) := mem_rows_iff htree hdir hkey hslash hextension hplain
    hfits hlocate hpaths hrows path bytes
  have hstored : (s.loadModule config fs key source).session = sel.store s rows := hleft
  have hkeys {r : LoadedFile} {way : List Text}
      (hpath : r.path = config.settings.modulePath key ++ slash :: ofParts way) :
      sel.key r.path = moduleKey source way := by
    rw [hpath]
    exact moduleFileKey_below _ _ _
  refine ⟨q, node, rows, hlocate, hstored, hmem, fun way bytes hfile => ?keys, fun k hk => ?others⟩
  case keys =>
    obtain ⟨r, hr, hpath, -⟩ := (hmem _ _).mpr ⟨way, hfile, rfl⟩
    obtain ⟨last, hlast, hkey, hgreatest, hentry⟩ :=
      Selection.exists_stored s hsorted ⟨r, hr, hkeys hpath⟩
    obtain ⟨way', hfile', hpath'⟩ := (hmem _ _).mp ⟨last, hlast, rfl, rfl⟩
    rw [← hstored] at hentry
    refine ⟨way', last.content, last.document,
      ⟨hfile', (hkeys hpath').symm.trans hkey, fun other bytes' hother heq => ?_⟩,
      (hrows last hlast).parse, hentry⟩
    obtain ⟨x, hx, hpath, -⟩ := (hmem _ _).mpr ⟨other, hother, rfl⟩
    rw [← hpath', ← hpath]
    exact hgreatest x hx ((hkeys hpath).trans heq)
  case others =>
    rw [hstored]
    refine Selection.store_of_notMem s fun r hr heq => ?_
    obtain ⟨way, hfile, hpath⟩ := (hmem _ _).mp ⟨r, hr, rfl, rfl⟩
    exact hk way _ hfile ((hkeys hpath).symm.trans heq)

/-- The modules of a directory whose name is a pattern. The name of one is a pattern too, which the
name of the other matches; two of its files fall on one key. -/
def patternModules : FileSystem :=
  (((((FileSystem.empty []).write (text "m[1]/a*b/d/x.tf") (Encoding.encode (text "a = 1\n"))).write
    (text "m[1]/a*b/d\\x.tf") (Encoding.encode (text "a = 2\n"))).write
    (text "m[1]/a*b/.d/x.tf") []).write (text "m[1]/a*b/x.json") []).write
    (text "m[1]/aab/x.tf") []

theorem tree_patternModules : patternModules.Tree := by
  have hempty : (FileSystem.empty []).Tree := tree_empty (List.forall_mem_nil _)
  exact ((((hempty.write (by decide) (by decide) _).write (by decide) (by decide) _).write
    (by decide) (by decide) _).write (by decide) (by decide) _).write (by decide) (by decide) _

def patternConfig : Config := .standard { Settings.default with moduleDir := text "m[1]" }

theorem locate_patternModules :
    patternModules.locate true (patternConfig.settings.modulePath (text "a*b")) =
      .ok ([text "m[1]", text "a*b"], .directory) := by
  decide +kernel

theorem find_patternModules : patternConfig.find patternModules true (Session.modulePattern
    patternConfig.settings (patternConfig.settings.modulePath (text "a*b"))) =
      .ok [text "m[1]/a*b/d/x.tf", text "m[1]/a*b/d\\x.tf"] :=
  Config.find_of_paths (by decide +kernel) (Glob.paths_of_search (by decide +kernel)
    (by decide +kernel) (by decide +kernel) (by decide +kernel))

theorem Session.loads_module_files_of_pattern :
    let step := empty.loadModule patternConfig patternModules (text "a*b") (text "src")
    ModulesPath patternConfig.settings.moduleDir ∧
      patternModules.FitsBelow (patternConfig.settings.modulePath (text "a*b")) ∧
      (step.failure, step.session.store.keys, step.session.store.files.get? (text "src/d/x.tf")) =
        (none, [text "src/d/x.tf"], some (Encoding.encode (text "a = 2\n"))) ∧
      ∃ (q : Place) (node : Node) (rows : List LoadedFile),
        patternModules.locate true (patternConfig.settings.modulePath (text "a*b")) =
          .ok (q, node) ∧
        ModuleLoaded patternConfig patternModules (text "a*b") (text "src") empty step.session q
          rows := by
  intro step
  have hdir : ModulesPath patternConfig.settings.moduleDir :=
    ⟨by decide, relative_of_notMem (by decide), by decide, by decide⟩
  have hfits : patternModules.FitsBelow (patternConfig.settings.modulePath (text "a*b")) :=
    tree_patternModules.fitsBelow locate_patternModules (by decide)
  have hstep : (step.failure, step.session.store.keys,
      step.session.store.files.get? (text "src/d/x.tf")) =
        (none, [text "src/d/x.tf"], some (Encoding.encode (text "a = 2\n"))) := by
    simp only [step, loadModule, find_patternModules]
    decide +kernel
  exact ⟨hdir, hfits, hstep, loads_module_files tree_patternModules hdir (by decide) (by decide)
    (by decide) (by decide) hfits (text "src") empty (Prod.mk.inj hstep).1⟩

end Terraload
