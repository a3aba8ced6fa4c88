import Terraload.Proofs.FileSystem.Reordered
import Terraload.Proofs.Session.ModuleFiles
/-!
The order in which directories list their names. It has no say in what a call does: which of several
files on one key stays, which broken file is reported, and which entries come first follow from the
paths alone, since these are sorted before the first of them is read.
-/
namespace Terraload

open FileSystem

variable {fs fs' : FileSystem}

theorem take_modulePattern (settings : Settings) (key : Text) :
    (Session.modulePattern settings (settings.modulePath key)).take 2 ≠ Glob.deepMark := by
  rw [modulePattern_eq]
  exact Glob.take_filesPattern (List.append_ne_nil_of_left_ne_nil (by simp [text, Text.ofChars]) _)

namespace Session

variable (h : SameFiles fs fs') (config : Config)
include h

theorem loadFiles_sameFiles (count : Metrics → Metrics) (files : List (Text × Text)) (s : Session) :
    loadFiles config fs' count files s = loadFiles config fs count files s := by
  induction files generalizing s with
  | nil => rfl
  | cons file files ih => simp only [loadFiles, loadFile, h.read_eq, ih]

theorem find_sameFiles (deep : Bool) {p : Text} (hp : (deep && p.take 2 == Glob.deepMark) = false) :
    config.find fs' deep p = config.find fs deep p := by
  simp only [Config.find, Glob.levels_eq h deep p, Glob.paths_eq h deep hp]

theorem loadTemplate_sameFiles (pattern : Text) (s : Session) :
    loadTemplate config fs' pattern s = loadTemplate config fs pattern s := by
  simp only [loadTemplate, find_sameFiles h config false (p := pattern) rfl, loadFiles_sameFiles h]

theorem loadDirectory_sameFiles (directory : Text) (s : Session) :
    loadDirectory config fs' directory s = loadDirectory config fs directory s := by
  simp only [loadDirectory, h.locate_eq, loadTemplate_sameFiles h]

theorem loadModule_sameFiles (key source : Text) (s : Session) :
    loadModule config fs' key source s = loadModule config fs key source s := by
  have hfind := find_sameFiles h config true
    (p := modulePattern config.settings (config.settings.modulePath key))
    (by simpa using take_modulePattern config.settings key)
  simp only [loadModule, h.exists?_eq, hfind, loadFiles_sameFiles h]

theorem loadState_sameFiles (s : Session) : loadState config fs' s = loadState config fs s := by
  simp only [loadState, readEnvironment, stateSource?, readState, h.read_eq, h.exists?_eq]

theorem loadTfvarsFiles_sameFiles (paths : List Text) (s : Session) :
    loadTfvarsFiles config fs' paths s = loadTfvarsFiles config fs paths s := by
  induction paths generalizing s with
  | nil => rfl
  | cons path paths ih => simp only [loadTfvarsFiles, loadTfvarsFile, h.exists?_eq, h.read_eq, ih]

/-- Of two file systems with the same at every place, whatever the order in which it came there, a
call makes the same: the same session, the same entries in the same order, and the same failure if it
fails. -/
theorem listing_order_irrelevant (s : Session) (c : Call) : c.run config fs' s = c.run config fs s := by
  cases c with
  | template pattern => exact loadTemplate_sameFiles h config pattern s
  | directory d => exact loadDirectory_sameFiles h config d s
  | moduleFiles key source => exact loadModule_sameFiles h config key source s
  | state => exact loadState_sameFiles h config s
  | tfvars paths => simp only [Call.run, loadTfvars, loadTfvarsFiles_sameFiles h]

omit h

def writtenInOrder (files : List (String × String)) : FileSystem :=
  files.foldl (fun fs f => fs.write (text f.1) (Encoding.encode (text f.2))) (FileSystem.empty [])

def sharedAndBroken : List (String × String) :=
  [(".terraform/modules/a/d/x.tf", "a = 1\n"), (".terraform/modules/a/d\\x.tf", "a = 2\n"),
    (".terraform/modules/a/m.tf", "m = \n"), (".terraform/modules/a/n.tf", "n = \n")]

theorem sameFiles_reversed :
    SameFiles (writtenInOrder sharedAndBroken) (writtenInOrder sharedAndBroken.reverse) := by
  have hperm : (writtenInOrder sharedAndBroken.reverse).nodes.Perm
      (writtenInOrder sharedAndBroken).nodes := by
    decide +kernel
  exact ⟨by decide +kernel, fun e => hperm.mem_iff⟩

theorem find_sharedAndBroken : (Config.standard .default).find (writtenInOrder sharedAndBroken) true
    (modulePattern (Config.standard .default).settings
      ((Config.standard .default).settings.modulePath (text "a"))) =
        .ok [text ".terraform/modules/a/d/x.tf", text ".terraform/modules/a/d\\x.tf",
          text ".terraform/modules/a/m.tf", text ".terraform/modules/a/n.tf"] :=
  Config.find_of_paths (by decide +kernel) (Glob.paths_of_search (by decide +kernel)
    (by decide +kernel) (by decide +kernel) (by decide +kernel))

theorem listing_order_irrelevant_on_reversed :
    let config := Config.standard .default
    let fs := writtenInOrder sharedAndBroken
    let fs' := writtenInOrder sharedAndBroken.reverse
    let directory := [text ".terraform", text "modules", text "a"]
    let call := Call.moduleFiles (text "a") (text "src")
    let step := call.run config fs empty
    SameFiles fs fs' ∧
      (fs.children directory, fs'.children directory) =
        ([text "d", text "d\\x.tf", text "m.tf", text "n.tf"],
          [text "n.tf", text "m.tf", text "d\\x.tf", text "d"]) ∧
      (step.session.store.files, step.session.metrics.moduleFilesLoaded,
          step.failure.map Failure.message) =
        ([(text "src/d/x.tf", Encoding.encode (text "a = 2\n"))], 2,
          some (text "Parse error occurred by .terraform/modules/a/m.tf")) ∧
      call.run config fs' empty = step := by
  intro config fs fs' directory call step
  refine ⟨sameFiles_reversed, ?_, ?_,
    listing_order_irrelevant sameFiles_reversed config empty call⟩
  · subst fs fs' directory
    decide +kernel
  · simp only [step, config, fs, call, Call.run, loadModule, find_sharedAndBroken]
    decide +kernel

end Session

end Terraload
