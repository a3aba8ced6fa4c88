import Terraload.Proofs.FileSystem.Spelling
import Terraload.Proofs.Session.ModuleFiles
import Terraload.Proofs.Session.TemplateKey
/-!
The keys that the files of a module get. The path of the module's directory is taken out of the path
that a file was found by, where it stands in it; so a key is the source and the path inside the
directory exactly if the search spells the directory as it is given.
-/
namespace Terraload

open Terraload.Path FileSystem Glob

variable {config : Config} {fs : FileSystem} {d e r t part source key k : Text} {s : Session}

/-- A part is taken out of a text as a whole, or the text stays as it is. -/
theorem Text.eraseFirst_cases (t part : Text) :
    t.eraseFirst part = t ∨ (t.eraseFirst part).length + part.length = t.length := by
  induction t with
  | nil =>
    unfold eraseFirst
    split
    next h =>
      rw [List.isPrefixOf_iff_prefix, List.prefix_nil] at h
      simp [h]
    next => exact .inl rfl
  | cons a t ih =>
    unfold eraseFirst
    split
    next h =>
      have hle := (List.isPrefixOf_iff_prefix.mp h).length_le
      right
      rw [List.length_drop]
      omega
    next =>
      dsimp only
      obtain heq | hlength := ih
      · exact .inl (by rw [heq])
      · right
        rw [List.length_cons, List.length_cons]
        omega

theorem length_normalizeKey (p : Text) : (normalizeKey p).length = p.length := List.length_map ..

theorem SearchedAs.ne_nil (h : SearchedAs d e) (hne : e ≠ d) : e ≠ [] := by
  cases h with
  | slashes => exact absurd rfl hne
  | trimmed k h => exact h.trimmed.2.ne_nil

/-- What is found below a directory gets its path inside the directory for a key, behind the source,
exactly if the search spells the directory as it is given. -/
theorem moduleFileKey_eq_iff (h : SearchedAs d e) (source r : Text) :
    Session.moduleFileKey d source (e ++ slash :: r) = source ++ slash :: normalizeKey r ↔
      Kept d := by
  rw [← h.eq_iff_kept, Session.moduleFileKey, normalizeKey_behind, List.append_cancel_left_eq]
  constructor
  · intro herase
    by_contra hne
    have hlonger := Text.eraseFirst_cases (normalizeKey e ++ slash :: normalizeKey r) (normalizeKey d)
    rw [herase, List.length_append, List.length_cons, length_normalizeKey, length_normalizeKey,
      length_normalizeKey] at hlonger
    obtain heq | hlength := hlonger
    · have hnil : normalizeKey e = [] := List.self_eq_append_left.mp heq
      exact h.ne_nil hne (List.map_eq_nil_iff.mp hnil)
    · exact hne (h.sublist.eq_of_length (by omega))
  · rintro rfl
    exact eraseFirst_append _ _

namespace Session

/-- A file that a search for the files of a module has found: the path it is found by, its path
inside the directory, and the bytes that are read through either. -/
structure FoundInside (config : Config) (fs : FileSystem) (d path rel : Text) (bytes : Bytes) :
    Prop where
  found : ∃ ps, Glob.paths fs true (modulePattern config.settings d) = .ok ps ∧ path ∈ ps
  spelled : ∃ e, SearchedAs d e ∧ path = e ++ slash :: rel
  relative : Relative rel
  ne_nil : rel ≠ []
  read : fs.read path = .ok bytes
  inside : fs.read (d ++ slash :: rel) = .ok bytes

/-- What the pattern of a module finds lies behind its directory, as the search spells it. -/
theorem searchedAs_of_paths (hfs : fs.Named) {settings : Settings} {path : Text} {ps : List Text}
    (hps : Glob.paths fs true (modulePattern settings d) = .ok ps) (hpath : path ∈ ps) :
    ∃ e r, SearchedAs d e ∧ Apart r ∧ r ≠ [] ∧ path = e ++ slash :: r := by
  rw [modulePattern_eq] at hps
  exact searchedAs_of_filesPattern hfs (mem_search_of_paths hps hpath)

theorem moduleFile_key (hfs : fs.Named) {path : Text} {ps : List Text} {bytes : Bytes}
    (hps : Glob.paths fs true (modulePattern config.settings d) = .ok ps) (hpath : path ∈ ps)
    (hread : fs.read path = .ok bytes) :
    ∃ rel, FoundInside config fs d path rel bytes ∧ ∀ source,
      (moduleFileKey d source path = source ++ slash :: normalizeKey rel ↔ Kept d) := by
  obtain ⟨e, r, hspelled, hapart, hne, rfl⟩ := searchedAs_of_paths hfs hps hpath
  have hinside : fs.read (d ++ slash :: r) = .ok bytes := (hspelled.read_eq fs r).trans hread
  exact ⟨r, ⟨⟨ps, hps, hpath⟩, ⟨e, hspelled, rfl⟩, hapart.relative, hne, hread, hinside⟩,
    fun source => moduleFileKey_eq_iff hspelled source r⟩

/-- The keys that a call for a module stores files under do not depend on the session. Each belongs
to a file inside the directory of the module, and is the source and the path of the file in there,
a slash between them, exactly if the path of the directory is spelled so that a search keeps it. -/
theorem loadModule_keys (hfs : fs.Named) (config : Config) (key source : Text) :
    ∃ added : List Text,
      (∀ s k, k ∈ (loadModule config fs key source s).session.store.keys ↔
        k ∈ s.store.keys ∨ k ∈ added) ∧
      ∀ k ∈ added, ∃ path rel bytes,
        FoundInside config fs (config.settings.modulePath key) path rel bytes ∧
        k = moduleFileKey (config.settings.modulePath key) source path ∧
        (k = source ++ slash :: normalizeKey rel ↔ Kept (config.settings.modulePath key)) := by
  have hmakes : Makes (Edit.From config fs (.moduleFiles key source))
      (loadModule config fs key source) := makes_loadModule key source
  obtain ⟨edits, log, failure, hrun, hedits⟩ := hmakes
  refine ⟨edits.filterMap Edit.key?, fun s k => ?_, fun k hk => ?_⟩
  · rw [hrun, mem_keys_edits, List.mem_filterMap]
  · obtain ⟨e, he, hkey⟩ := List.mem_filterMap.mp hk
    cases hedits e he with
    | template hc => cases hc
    | @moduleFile _ _ path ps document bytes hps hpath hstores =>
      cases hkey
      obtain ⟨rel, hinside, hiff⟩ := moduleFile_key hfs hps hpath hstores.read
      exact ⟨path, rel, bytes, hinside, rfl, hiff source⟩

theorem named_patternModules : patternModules.Named := fun e he n hn =>
  (tree_patternModules.proper e he n hn).noSlash

theorem loadModule_keys_of_pattern :
    patternModules.Named ∧ Kept (patternConfig.settings.modulePath (text "a*b")) ∧
      (empty.loadModule patternConfig patternModules (text "a*b") (text "src")).session.store.keys =
        [text "src/d/x.tf"] ∧
      ∃ added : List Text,
        (∀ s k, k ∈ (loadModule patternConfig patternModules (text "a*b") (text "src")
            s).session.store.keys ↔ k ∈ s.store.keys ∨ k ∈ added) ∧
        ∀ k ∈ added, ∃ path rel bytes,
          FoundInside patternConfig patternModules (patternConfig.settings.modulePath (text "a*b"))
            path rel bytes ∧
          k = moduleFileKey (patternConfig.settings.modulePath (text "a*b")) (text "src") path ∧
          (k = text "src" ++ slash :: normalizeKey rel ↔
            Kept (patternConfig.settings.modulePath (text "a*b"))) := by
  have hkept : Kept (patternConfig.settings.modulePath (text "a*b")) :=
    kept_of_apart ⟨by decide, by decide⟩ (by decide)
  have hkeys : (empty.loadModule patternConfig patternModules (text "a*b")
      (text "src")).session.store.keys = [text "src/d/x.tf"] := by
    simp only [loadModule, find_patternModules]
    decide +kernel
  exact ⟨named_patternModules, hkept, hkeys, loadModule_keys named_patternModules patternConfig
    (text "a*b") (text "src")⟩

def plainModule : FileSystem :=
  (FileSystem.empty []).write (text ".terraform/modules/a/x.tf") (Encoding.encode (text "a = 1\n"))

/-- A slash behind the name of a module is taken out of the keys of its files with the directory; two
slashes keep the directory in them. -/
theorem slash_behind_module :
    let config := Config.standard .default
    (empty.loadModule config plainModule (text "a/") (text "src")).session.store.keys =
        [text "srcx.tf"] ∧
      (empty.loadModule config plainModule (text "a//") (text "src")).session.store.keys =
        [text "src.terraform/modules/a/x.tf"] ∧
      (∀ rel, text "srcx.tf" ≠ text "src" ++ slash :: rel) ∧
      ∀ rel, text "src.terraform/modules/a/x.tf" ≠ text "src" ++ slash :: rel := by
  refine ⟨?_, ?_, fun rel => ?_, fun rel => ?_⟩
  · decide +kernel
  · decide +kernel
  · simp [text, Text.ofChars, slash]
  · simp [text, Text.ofChars, slash]

end Session

end Terraload
