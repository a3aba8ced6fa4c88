import Terraload.Proofs.FileSystem.Distinct
import Terraload.Proofs.FileSystem.Normalized
import Terraload.Proofs.Session.ModuleFiles
import Terraload.Proofs.Session.TemplateKey
/-!
The templates of a directory. A call for them that does not fail has loaded the entries of the
directory that the normalized path leads to, whatever characters the path is made of: those that are
not hidden and have the extension, each under a key of its own. This directory is the one that the path
itself leads to, which is checked before, where the path takes back no link.
-/
namespace Terraload

open Terraload.Path FileSystem Glob

variable {config : Config} {settings : Settings} {fs : FileSystem} {d n m p part extension : Text}
  {q : Place} {ns : List Text} {bytes : Bytes} {s : Session}

structure FileSystem.Entry (fs : FileSystem) (extension : Text) (q : Place) (n : Text) : Prop where
  mem : n ∈ fs.children q
  visible : hidden n = false
  accepted : Wildcard.accepts (extensionPart extension) n = true

namespace Glob

theorem mem_matching_iff (hd : d ≠ []) : n ∈ matching fs false d (extensionPart extension) ↔
    ∃ q, fs.locate true d = .ok (q, .directory) ∧ Entry fs extension q n := by
  have hhidden : hidden (extensionPart extension) = false := rfl
  cases hdirectory : fs.isDirectory d with
  | true =>
    obtain ⟨q, hq⟩ := isDirectory_eq_true.mp hdirectory
    rw [matching, names_of_locate false hq, if_neg Bool.false_ne_true, List.mem_filter, hhidden,
      Bool.false_or, Bool.and_eq_true, Bool.not_eq_true']
    constructor
    · rintro ⟨hmem, hvisible, haccepts⟩
      exact ⟨q, hq, hmem, hvisible, haccepts⟩
    · rintro ⟨r, hr, hentry⟩
      cases hq.symm.trans hr
      exact ⟨hentry.mem, hentry.visible, hentry.accepted⟩
  | false =>
    rw [matching, names_of_notDirectory hd hdirectory]
    refine iff_of_false List.not_mem_nil ?_
    rintro ⟨q, hq, -⟩
    rw [isDirectory_eq_true.mpr ⟨q, hq⟩] at hdirectory
    cases hdirectory

def namesPattern (d extension : Text) : Text := Wildcard.escape d ++ slash :: extensionPart extension

theorem isMagic_namesPattern (d extension : Text) :
    Wildcard.isMagic (namesPattern d extension) = true := by
  rw [namesPattern, Wildcard.isMagic_append]
  exact Bool.or_true _

theorem length_namesPattern (hs : ∀ n ∈ ns, n ≠ [] ∧ slash ∉ n) (extension : Text) :
    ns.length ≤ (namesPattern (ofParts ns) extension).length := by
  have hescape := length_le_ofParts (row_escape hs)
  rw [List.length_map, ← escape_ofParts] at hescape
  rw [namesPattern, List.length_append]
  exact hescape.trans (Nat.le_add_right _ _)

/-- The pattern finds the entries that have the extension, each behind the directory. -/
theorem search_namesPattern (hfs : fs.Listed) {ms : List Text} (hne : ms ≠ [])
    (hs : ∀ n ∈ ms, n ≠ [] ∧ slash ∉ n) (hslash : slash ∉ extension) {limit : Nat}
    (hlimit : ms.length ≤ limit) : ∃ ns : List Text,
      search fs false (limit + 1) false (namesPattern (ofParts ms) extension) =
        ns.map (join (ofParts ms)) ∧ ns.Nodup ∧
      ∀ n, n ∈ ns ↔ ∃ q, fs.locate true (ofParts ms) = .ok (q, .directory) ∧
        Entry fs extension q n := by
  have hpart : slash ∉ extensionPart extension := by simpa [extensionPart, slash] using hslash
  have hsplit : split (namesPattern (ofParts ms) extension) =
      (Wildcard.escape (ofParts ms), extensionPart extension) := split_escape hne hs hpart
  have hfst := congrArg Prod.fst hsplit
  have htrimmed : Trimmed (ofParts ms) := ⟨row_ne_nil hne hs, getLast?_row hne hs⟩
  have hparents : FindsAlone fs (ofParts ms)
      (parents fs false limit (namesPattern (ofParts ms) extension)) :=
    parents_escape hfst fun hmagic => search_escape hfs hne hs hmagic hlimit
  have hone : (parents fs false limit (namesPattern (ofParts ms) extension)).length ≤ 1 :=
    length_parents_escape hfst (length_search_escape htrimmed)
  have hdir : (split (namesPattern (ofParts ms) extension)).1 ≠ [] := by
    rw [hsplit]
    exact htrimmed.escape.ne_nil
  obtain hnil | ⟨x, hx, hfound⟩ := search_rows_cases false
    (isMagic_namesPattern _ _) hdir hone
  · refine ⟨[], hnil, .nil, fun n => iff_of_false List.not_mem_nil ?_⟩
    rintro ⟨q, hq, hentry⟩
    have hmem : join (ofParts ms) n ∈
        search fs false (limit + 1) false (namesPattern (ofParts ms) extension) :=
      (mem_search_rows (isMagic_namesPattern _ _) hdir).mpr
        ⟨_, hparents.there (isDirectory_eq_true.mpr ⟨q, hq⟩), n, ?_, rfl⟩
    · rw [hnil] at hmem
      cases hmem
    · rw [hsplit]
      exact (mem_matching_iff htrimmed.ne_nil).mpr ⟨q, hq, hentry⟩
  · obtain rfl := hparents.alone x hx
    rw [hsplit] at hfound
    exact ⟨matching fs false (ofParts ms) (extensionPart extension), hfound,
      (nodup_names fs false _).filter _, fun n => mem_matching_iff htrimmed.ne_nil⟩

end Glob

namespace Session

theorem directoryPattern_eq (settings : Settings) (hrel : Relative d) :
    directoryPattern settings d = namesPattern (normalize d) settings.templateExtension := by
  obtain ⟨ns, hne, hs, hrow⟩ := exists_row hrel
  have htrimmed : Trimmed (normalize d) := by
    rw [hrow]
    exact ⟨row_ne_nil hne hs, getLast?_row hne hs⟩
  have hpart : Relative (text "*." ++ settings.templateExtension) :=
    relative_append (relative_of_notMem (by decide)) (by decide)
  rw [directoryPattern, join_of_last htrimmed.escape.ne_nil htrimmed.escape.last hpart]
  rfl

/-- The entries of a directory that have the extension, in the order of their paths. -/
theorem paths_directoryPattern {paths : List Text} (hfs : fs.Listed) (hrel : Relative d)
    (hslash : slash ∉ settings.templateExtension)
    (hpaths : Glob.paths fs false (directoryPattern settings d) = .ok paths) :
    ∃ ns : List Text, ns.map (join (normalize d)) = paths ∧ ns.Nodup ∧
      ∀ n, n ∈ ns ↔ ∃ q, fs.locate true (normalize d) = .ok (q, .directory) ∧
        Entry fs settings.templateExtension q n := by
  have hsorted := paths_eq_sorted hpaths Bool.noConfusion
  rw [directoryPattern_eq settings hrel] at hsorted
  obtain ⟨ms, hne, hs, hrow⟩ := exists_row hrel
  rw [hrow] at hsorted ⊢
  obtain ⟨ns, hsearch, hnodup, hmem⟩ := search_namesPattern hfs hne hs hslash
    (length_namesPattern hs settings.templateExtension)
  have hperm := List.mergeSort_perm ns fun a b => (join (ofParts ms) a).le (join (ofParts ms) b)
  refine ⟨_, ?_, hperm.nodup_iff.mpr hnodup, fun n => hperm.mem_iff.trans (hmem n)⟩
  rw [hsorted, hsearch, List.map_mergeSort]
  intros
  rfl

/-- The key of an entry of a directory: its path behind the normalized one of the directory, or its
name alone where this is the current directory. -/
def directoryKey (d n : Text) : Text :=
  normalizeKey (if normalize d = dot then n else normalize d ++ slash :: n)

theorem normalize_ne_dot (hrel : Relative d) (hne : reduced d ≠ []) : normalize d ≠ dot := by
  intro hdot
  have hnames := names_normalize hrel
  rw [hdot] at hnames
  exact hne (hnames.symm.trans (by decide))

theorem settled_append (h : Settled false ns) (hn : ProperName n) : Settled false (ns ++ [n]) := by
  rw [← List.reverse_reverse ns] at h
  have hpush := h.push ⟨hn.ne_nil, hn.ne_dot⟩
  rwa [push_name hn.ne_dotdot, List.reverse_cons, List.reverse_reverse] at hpush

theorem names_join (hrel : Relative d) (hn : ProperName n) :
    Path.names (join (normalize d) n) = reduced d ++ [n] := by
  obtain ⟨ns, hne, hs, hrow⟩ := exists_row hrel
  have hname : Path.names n = [n] := by
    simp [Path.names, parts_name hn.noSlash, hn.ne_nil, hn.ne_dot]
  have hjoin : join (normalize d) n = normalize d ++ slash :: n := by
    rw [hrow]
    exact join_of_last (row_ne_nil hne hs) (getLast?_row hne hs) (relative_of_notMem hn.noSlash)
  rw [hjoin, names_append, names_normalize hrel, hname]

theorem relative_join_normalize (hrel : Relative d) (hn : ProperName n) :
    Relative (join (normalize d) n) :=
  relative_join (relative_normalize hrel) (relative_of_notMem hn.noSlash)

theorem templateKey_join (hrel : Relative d) (hn : ProperName n) :
    templateKey (join (normalize d) n) = directoryKey d n := by
  have hsettled : Settled false (reduced d ++ [n]) := by
    have hreduced := settled_reduced d
    rw [root_of_relative hrel] at hreduced
    exact settled_append hreduced hn
  have hreduced : reduced (join (normalize d) n) = reduced d ++ [n] := by
    rw [reduced, root_of_relative (relative_join_normalize hrel hn), names_join hrel hn,
      List.isEmpty_nil, Bool.not_true, hsettled.foldl_eq, List.reverse_reverse]
  have hnormal : normalize (join (normalize d) n) = ofParts (reduced d ++ [n]) := by
    rw [normalize_of_reduced (relative_join_normalize hrel hn) (by rw [hreduced]; simp), hreduced]
  rw [templateKey, directoryKey, hnormal]
  by_cases hne : reduced d = []
  · rw [if_pos (normalize_of_empty hrel hne), hne]
    rfl
  · rw [if_neg (normalize_ne_dot hrel hne), normalize_of_reduced hrel hne,
      ofParts_append hne (List.cons_ne_nil _ _)]
    rfl

/-- Names without a slash stay apart where backslashes become slashes. -/
theorem normalizeKey_inj (hn : slash ∉ n) (hm : slash ∉ m) (h : normalizeKey n = normalizeKey m) :
    n = m := by
  induction n generalizing m with
  | nil => exact (List.map_eq_nil_iff.mp h.symm).symm
  | cons a n ih =>
    obtain ⟨b, m, rfl⟩ : ∃ b k, m = b :: k := by
      cases m with
      | nil => cases h
      | cons b m => exact ⟨b, m, rfl⟩
    obtain ⟨hhead, htail⟩ := List.cons.inj h
    obtain ⟨ha, hn⟩ := not_or.mp (List.mem_cons.not.mp hn)
    obtain ⟨hb, hm⟩ := not_or.mp (List.mem_cons.not.mp hm)
    rw [ih hn hm htail]
    have hab : a = b := by
      dsimp only at hhead
      split at hhead <;> split at hhead
      next hback hback' => rw [hback, hback']
      · exact absurd hhead hb
      · exact absurd hhead.symm ha
      · exact hhead
    rw [hab]

theorem directoryKey_inj (hn : slash ∉ n) (hm : slash ∉ m) (h : directoryKey d n = directoryKey d m) :
    n = m := by
  unfold directoryKey at h
  split at h
  · exact normalizeKey_inj hn hm h
  · rw [normalizeKey_behind, normalizeKey_behind] at h
    exact normalizeKey_inj hn hm (List.cons.inj (List.append_cancel_left h)).2

/-- What is read through the path of an entry is the file that the entry leads to. -/
theorem walk_of_read (hrel : Relative d) (hn : ProperName n)
    (hq : fs.locate true (normalize d) = .ok (q, .directory))
    (h : fs.read (join (normalize d) n) = .ok bytes) :
    ∃ file, fs.walk true linkLimit q [n] = .ok (file, .file bytes) := by
  obtain ⟨file, hlocate⟩ := locate_of_read h
  have hjoin := relative_join_normalize hrel hn
  have hwalked := walked_of_locate (relative_clean hjoin) hlocate
  rw [names_clean hjoin, names_join hrel hn] at hwalked
  have hfront := walked_of_locate (relative_normalize hrel) hq
  rw [names_normalize hrel] at hfront
  obtain ⟨r, left, hle, hr, hback, -⟩ := Walked.exists_parts hwalked (List.cons_ne_nil _ _)
  cases hfront.walk_eq.symm.trans hr.walk_eq
  exact ⟨file, (hback.mono hle).walk_eq⟩

/-- The templates of a pattern that are all loaded. -/
theorem loadTemplate_stored {pattern : Text}
    (h : (loadTemplate config fs pattern s).failure = none) : ∃ rows : List LoadedFile,
      Glob.paths fs false pattern = .ok (rows.map (·.path)) ∧ (∀ r ∈ rows, r.Stored config fs) ∧
      (rows.Pairwise fun a b => a.path.le b.path = true) ∧
      (loadTemplate config fs pattern s).session = (Selection.templates pattern).store s rows := by
  cases hfind : config.find fs false pattern with
  | error f =>
    simp only [loadTemplate, hfind] at h
    cases h
  | ok paths =>
    rw [loadTemplate_of_find hfind] at h ⊢
    exact stored_of_loadFiles (counts_templates pattern) hfind h

structure DirectoryLoaded (config : Config) (fs : FileSystem) (d : Text)
    (found : Except PathError (Place × Node)) (s left : Session) (ns : List Text) : Prop where
  /-- Each has a key of its own. -/
  nodup : (ns.map (directoryKey d)).Nodup
  /-- Under its key stand the bytes of the file that an entry leads to, and their document. -/
  stored : ∀ n ∈ ns, ∀ q, found = .ok (q, .directory) → ∃ file bytes document,
    fs.walk true linkLimit q [n] = .ok (file, .file bytes) ∧
      config.templateParser.parse bytes = .document document ∧
      left.store.templates.get? (directoryKey d n) = some document ∧
      left.store.files.get? (directoryKey d n) = some bytes
  /-- What stands under another key stays as it was. -/
  others : ∀ k, k ∉ ns.map (directoryKey d) →
    left.store.templates.get? k = s.store.templates.get? k ∧
      left.store.files.get? k = s.store.files.get? k
  /-- Each entry is counted once, and nothing else is changed. -/
  counted : left = { s with
    store := left.store
    metrics := { s.metrics with templatesLoaded := s.metrics.templatesLoaded + ns.length } }

/-- The files that are found by the paths of entries stand in a session as these entries. -/
theorem directoryLoaded_of_rows {rows : List LoadedFile} (pattern : Text) (s : Session)
    (hrel : Relative d) (hproper : ∀ n ∈ ns, ProperName n) (hnodup : ns.Nodup)
    (hrows : ns.map (join (normalize d)) = rows.map (·.path)) (hstored : ∀ r ∈ rows, r.Stored config fs)
    (hsorted : rows.Pairwise fun a b => a.path.le b.path = true) :
    DirectoryLoaded config fs d (fs.locate true (normalize d)) s
      ((Selection.templates pattern).store s rows) ns := by
  have hinj {n m : Text} (hn : n ∈ ns) (hm : m ∈ ns) (h : directoryKey d n = directoryKey d m) :
      n = m := directoryKey_inj (hproper n hn).noSlash (hproper m hm).noSlash h
  -- Each entry has a file, and each file is one of an entry.
  have hrow {n : Text} (hn : n ∈ ns) : ∃ r ∈ rows, templateKey r.path = directoryKey d n := by
    have hin := List.mem_map_of_mem (f := join (normalize d)) hn
    rw [hrows] at hin
    obtain ⟨r, hr, heq⟩ := List.mem_map.mp hin
    exact ⟨r, hr, heq ▸ templateKey_join hrel (hproper n hn)⟩
  have hentry {r : LoadedFile} (hr : r ∈ rows) : ∃ n ∈ ns, r.path = join (normalize d) n ∧
      templateKey r.path = directoryKey d n := by
    have hin := List.mem_map_of_mem (f := LoadedFile.path) hr
    rw [← hrows] at hin
    obtain ⟨n, hn, heq⟩ := List.mem_map.mp hin
    exact ⟨n, hn, heq.symm, heq ▸ templateKey_join hrel (hproper n hn)⟩
  refine ⟨?nodup, fun n hn q hq => ?stored, fun k hk => ?others, ?counted⟩
  case nodup => exact hnodup.map_on fun n hn m hm => hinj hn hm
  case stored =>
    obtain ⟨r, hr, hname⟩ : ∃ r ∈ rows, (Selection.templates pattern).key r.path = directoryKey d n :=
      hrow hn
    obtain ⟨last, hlast, hkey, -, hget⟩ := Selection.exists_stored s hsorted ⟨r, hr, hname⟩
    obtain ⟨m, hm, hpath, hkey'⟩ := hentry hlast
    obtain rfl := hinj hm hn (hkey'.symm.trans hkey)
    have hread := (hstored last hlast).read
    rw [hpath] at hread
    obtain ⟨file, hwalk⟩ := walk_of_read hrel (hproper m hm) hq hread
    exact ⟨file, last.content, last.document, hwalk, (hstored last hlast).parse, hget⟩
  case others =>
    refine Selection.store_of_notMem s fun r hr heq => hk ?_
    obtain ⟨n, hn, -, hkey⟩ := hentry hr
    exact List.mem_map.mpr ⟨n, hn, hkey.symm.trans heq⟩
  case counted =>
    have hlength : rows.length = ns.length := by
      rw [← List.length_map LoadedFile.path, ← hrows, List.length_map]
    simp only [Selection.store, Selection.templates, hlength]

theorem exists_checked (h : (s.loadDirectory config fs d).failure = none) :
    ∃ found, fs.locate true (clean d) = .ok found := by
  cases hlocate : fs.locate true (clean d) with
  | error e =>
    simp only [loadDirectory, hlocate] at h
    cases h
  | ok found => exact ⟨found, rfl⟩

/-- A call for a directory that does not fail has loaded the entries of the directory that the
normalized path leads to. -/
theorem exists_directoryLoaded (hfs : fs.Listed) (hrel : Relative d)
    (hslash : slash ∉ config.settings.templateExtension) (s : Session)
    (h : (s.loadDirectory config fs d).failure = none) : ∃ ns : List Text,
      (∀ n, n ∈ ns ↔ ∃ q, fs.locate true (normalize d) = .ok (q, .directory) ∧
        fs.Entry config.settings.templateExtension q n) ∧
      DirectoryLoaded config fs d (fs.locate true (normalize d)) s
        (s.loadDirectory config fs d).session ns := by
  obtain ⟨found, hfound⟩ := exists_checked h
  have hload : s.loadDirectory config fs d =
      s.loadTemplate config fs (directoryPattern config.settings d) := by
    simp only [loadDirectory, hfound]
  rw [hload] at h ⊢
  obtain ⟨rows, hpaths, hstored, hsorted, hleft⟩ := loadTemplate_stored h
  obtain ⟨ns, hrows, hnodup, hmem⟩ := paths_directoryPattern hfs hrel hslash hpaths
  have hproper (n : Text) (hn : n ∈ ns) : ProperName n := by
    obtain ⟨q, -, hentry⟩ := (hmem n).mp hn
    exact hfs.proper_of_mem hentry.mem
  rw [hleft]
  exact ⟨ns, hmem, directoryLoaded_of_rows _ s hrel hproper hnodup hrows hstored hsorted⟩

/-- A call for a directory that does not fail has loaded the entries of the directory that the
normalized path leads to which are not hidden and end in the extension: all of them, no others, and
none where the path leads to no directory. -/
theorem loads_directory (hfs : fs.Listed) (hrel : Relative d)
    (hslash : slash ∉ config.settings.templateExtension)
    (hplain : Wildcard.isMagic config.settings.templateExtension = false) (s : Session)
    (h : (s.loadDirectory config fs d).failure = none) : ∃ ns : List Text,
      (∀ n, n ∈ ns ↔ ∃ q, fs.locate true (normalize d) = .ok (q, .directory) ∧
        n ∈ fs.children q ∧ hidden n = false ∧
        .char '.' :: config.settings.templateExtension <:+ n) ∧
      DirectoryLoaded config fs d (fs.locate true (normalize d)) s
        (s.loadDirectory config fs d).session ns := by
  obtain ⟨ns, hmem, hloaded⟩ := exists_directoryLoaded hfs hrel hslash s h
  refine ⟨ns, fun n => (hmem n).trans (exists_congr fun q => and_congr_right fun _ => ?_), hloaded⟩
  rw [← accepts_extensionPart hplain]
  exact ⟨fun hn => ⟨hn.mem, hn.visible, hn.accepted⟩, fun hn => ⟨hn.1, hn.2.1, hn.2.2⟩⟩

/-- A directory whose name is a pattern that the name of another directory matches. Its entries are a
file with a backslash in its name, a hidden file, a link to a file elsewhere and a directory. -/
def patternDirectory : FileSystem :=
  (((((FileSystem.empty []).write (text "m[1]/a\\b.tf") (Encoding.encode (text "a = 1\n"))).write
    (text "m[1]/.x.tf") []).write (text "m[1]/d/x.tf") []).write (text "m1/x.tf")
    (Encoding.encode (text "a = 2\n"))).link (text "m[1]/c.tf") (text "../m1/x.tf")

theorem listed_patternDirectory : patternDirectory.Listed :=
  listed_of_root (by decide +kernel) (by decide +kernel)

theorem find_patternDirectory : (Config.standard .default).find patternDirectory false
    (text "m[[]1]/*.tf") = .ok [text "m[1]/a\\b.tf", text "m[1]/c.tf"] :=
  Config.find_of_paths (by decide +kernel) (Glob.paths_of_search (by decide +kernel) rfl
    (by decide +kernel) (by decide +kernel))

theorem loadDirectory_patternDirectory
    (hchecked : patternDirectory.locate true (clean d) = .ok ([text "m[1]"], .directory))
    (hpattern : directoryPattern .default d = text "m[[]1]/*.tf") :
    empty.loadDirectory (.standard .default) patternDirectory d =
      empty.loadFiles (.standard .default) patternDirectory Metrics.recordTemplate
        [(text "m[1]/a\\b.tf", text "m[1]/a/b.tf"), (text "m[1]/c.tf", text "m[1]/c.tf")] := by
  have hkeys : [text "m[1]/a\\b.tf", text "m[1]/c.tf"].map (fun p => (p, templateKey p)) =
      [(text "m[1]/a\\b.tf", text "m[1]/a/b.tf"), (text "m[1]/c.tf", text "m[1]/c.tf")] := by
    decide +kernel
  simp only [loadDirectory, hchecked, loadTemplate]
  rw [show (Config.standard .default).settings = .default from rfl, hpattern, find_patternDirectory]
  simp only [hkeys]

theorem loads_directory_of_pattern :
    let config := Config.standard .default
    let step := empty.loadDirectory config patternDirectory (text "./m[1]//")
    patternDirectory.Listed ∧
      (step.failure, step.session.store.keys,
          step.session.store.files.get? (text "m[1]/a/b.tf"),
          step.session.store.files.get? (text "m[1]/c.tf")) =
        (none, [text "m[1]/a/b.tf", text "m[1]/c.tf"], some (Encoding.encode (text "a = 1\n")),
          some (Encoding.encode (text "a = 2\n"))) ∧
      ∃ ns : List Text,
        (∀ n, n ∈ ns ↔ ∃ q,
          patternDirectory.locate true (normalize (text "./m[1]//")) = .ok (q, .directory) ∧
          n ∈ patternDirectory.children q ∧ hidden n = false ∧
          .char '.' :: config.settings.templateExtension <:+ n) ∧
        DirectoryLoaded config patternDirectory (text "./m[1]//")
          (patternDirectory.locate true (normalize (text "./m[1]//"))) empty step.session ns := by
  intro config step
  have hstep : (step.failure, step.session.store.keys,
      step.session.store.files.get? (text "m[1]/a/b.tf"),
      step.session.store.files.get? (text "m[1]/c.tf")) =
        (none, [text "m[1]/a/b.tf", text "m[1]/c.tf"], some (Encoding.encode (text "a = 1\n")),
          some (Encoding.encode (text "a = 2\n"))) := by
    have hfiles : step = _ :=
      loadDirectory_patternDirectory (by decide +kernel) (by decide +kernel)
    rw [hfiles, Store.keys_of_ordered (by decide +kernel)]
    decide +kernel
  exact ⟨listed_patternDirectory, hstep, loads_directory listed_patternDirectory
    (by decide) (by decide) (by decide) empty (Prod.mk.inj hstep).1⟩

/-- Of the path as it is given it is checked that it leads to something. Where it takes back no link
and the extension is part of a name, what is loaded are the entries of the directory that it leads to,
and nothing where that is a file. -/
theorem loads_checked_directory (hfs : fs.Listed) (hrel : Relative d) (s : Session)
    (h : (s.loadDirectory config fs d).failure = none) :
    ∃ (q : Place) (node : Node), fs.locate true (clean d) = .ok (q, node) ∧
      (slash ∉ config.settings.templateExtension → fs.TakesBackNoLink d → ∃ ns : List Text,
        (∀ n, n ∈ ns ↔ node = .directory ∧ fs.Entry config.settings.templateExtension q n) ∧
        DirectoryLoaded config fs d (.ok (q, node)) s (s.loadDirectory config fs d).session ns) := by
  obtain ⟨⟨q, node⟩, hchecked⟩ := exists_checked h
  refine ⟨q, node, hchecked, fun hslash hback => ?_⟩
  obtain ⟨ns, hmem, hloaded⟩ := exists_directoryLoaded hfs hrel hslash s h
  rw [locate_normalize hrel hback hchecked] at hmem hloaded
  refine ⟨ns, fun n => (hmem n).trans ⟨?_, ?_⟩, hloaded⟩
  · rintro ⟨r, hr, hentry⟩
    cases hr
    exact ⟨rfl, hentry⟩
  · rintro ⟨rfl, hentry⟩
    exact ⟨q, rfl, hentry⟩

theorem loads_checked_directory_of_pattern :
    let config := Config.standard .default
    let step := empty.loadDirectory config patternDirectory (text "m[1]/d/../")
    patternDirectory.Listed ∧ patternDirectory.TakesBackNoLink (text "m[1]/d/../") ∧
      (step.failure, step.session.store.keys) = (none, [text "m[1]/a/b.tf", text "m[1]/c.tf"]) ∧
      ∃ (q : Place) (node : Node) (ns : List Text),
        patternDirectory.locate true (clean (text "m[1]/d/../")) = .ok (q, node) ∧
        (∀ n, n ∈ ns ↔
          node = .directory ∧ patternDirectory.Entry config.settings.templateExtension q n) ∧
        DirectoryLoaded config patternDirectory (text "m[1]/d/../") (.ok (q, node)) empty
          step.session ns := by
  intro config step
  have hback : patternDirectory.TakesBackNoLink (text "m[1]/d/../") := by
    intro front back hnames q t hlink
    have hfront : front = [text "m[1]", text "d"] := by
      have hthree : Path.names (text "m[1]/d/../") = [text "m[1]", text "d", dotdot] := by decide
      rw [hthree] at hnames
      rcases front with _ | ⟨a, _ | ⟨b, _ | ⟨c, front⟩⟩⟩
      · cases hnames
      · cases hnames
      · cases hnames
        rfl
      · simp at hnames
    have hdirectory : patternDirectory.locate false
        (normalize (ofParts [text "m[1]", text "d"])) =
          .ok ([text "m[1]", text "d"], .directory) := by
      decide +kernel
    rw [hfront, hdirectory] at hlink
    cases hlink
  have hstep : (step.failure, step.session.store.keys) =
      (none, [text "m[1]/a/b.tf", text "m[1]/c.tf"]) := by
    have hfiles : step = _ :=
      loadDirectory_patternDirectory (by decide +kernel) (by decide +kernel)
    rw [hfiles, Store.keys_of_ordered (by decide +kernel)]
    decide +kernel
  obtain ⟨q, node, hchecked, hloaded⟩ := loads_checked_directory listed_patternDirectory
    (by decide) empty (Prod.mk.inj hstep).1
  obtain ⟨ns, hmem, hentries⟩ := hloaded (by decide) hback
  exact ⟨listed_patternDirectory, hback, hstep, q, node, ns, hchecked, hmem, hentries⟩

/-- A link to a directory below another one. From where it leads two dots go up to a directory that
has no files in it; the text alone goes back to the start. -/
def linkedDirectory : FileSystem :=
  ((((FileSystem.empty []).makeDirectory (text "a/b")).write (text "x.tf")
    (Encoding.encode (text "a = 1\n"))).write (text "m.d/x.tf")
    (Encoding.encode (text "a = 2\n"))).link (text "l") (text "a/b")

/-- What is loaded is not in the directory that was checked where two dots take back a link, and where
the extension leads into other directories; and a file passes for a directory. -/
theorem loads_unchecked_directory :
    let config := Config.standard .default
    let back := empty.loadDirectory config linkedDirectory (text "l/..")
    let file := empty.loadDirectory config linkedDirectory (text "x.tf")
    let below := empty.loadDirectory
      (.standard { Settings.default with templateExtension := text "d/x.tf" }) linkedDirectory dot
    ((back.failure, back.session.store.keys) = (none, [text "x.tf"]) ∧
        linkedDirectory.locate true (clean (text "l/..")) = .ok ([text "a"], .directory) ∧
        linkedDirectory.children [text "a"] = [text "b"]) ∧
      (file.failure = none ∧ ∀ q,
        linkedDirectory.locate true (clean (text "x.tf")) ≠ .ok (q, .directory)) ∧
      (below.failure, below.session.store.keys) = (none, [text "m.d/x.tf"]) ∧
        linkedDirectory.locate true (clean dot) = .ok ([], .directory) ∧
        linkedDirectory.walk true linkLimit [] [text "m.d"] = .ok ([text "m.d"], .directory) := by
  refine ⟨⟨?_, ?_, ?_⟩, ⟨?_, fun q hq => ?_⟩, ?_, ?_, ?_⟩
  · decide +kernel
  · decide +kernel
  · decide +kernel
  · decide +kernel
  · have hfile : linkedDirectory.locate true (clean (text "x.tf")) =
        .ok ([text "x.tf"], .file (Encoding.encode (text "a = 1\n"))) := by
      decide +kernel
    cases hfile.symm.trans hq
  · decide +kernel
  · decide +kernel
  · decide +kernel

end Session

end Terraload
