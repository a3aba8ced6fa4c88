import Terraload.Proofs.FileSystem.Difference
import Terraload.Proofs.Session.StateSource
/-!
A named workspace and the default state file. The name is a part of a path, so two dots in it can
lead back to the working directory, and the state file of the workspace is the default one then.
Where they do not, loading state does not look at the default file.
-/
namespace Terraload

open Terraload.Path FileSystem

variable {config : Config} {fs fs' : FileSystem} {e p : Text} {r : Place × Node}

namespace Session

/-- Loading state from two file systems is the same where the environment, the candidate and the
remote file are. -/
theorem loadState_congr {environment : Except Text Text}
    (henv : readEnvironment config.settings fs = .ok environment)
    (henv' : readEnvironment config.settings fs' = .ok environment)
    (hnear : Alike fs fs' (localStatePath config.settings environment))
    (hremote : Alike fs fs' config.settings.remoteStatePath) (s : Session) :
    s.loadState config fs' = s.loadState config fs := by
  have hsource : stateSource? config.settings fs' (localStatePath config.settings environment) =
      stateSource? config.settings fs (localStatePath config.settings environment) := by
    simp only [stateSource?, hnear.exists_eq, hremote.exists_eq]
  cases hfound : stateSource? config.settings fs
      (localStatePath config.settings environment) with
  | none => simp only [loadState, henv, henv', hsource, hfound]
  | some found =>
    obtain ⟨path, source⟩ := found
    have hread : fs'.read path = fs.read path := by
      simp only [stateSource?] at hfound
      split at hfound
      next there =>
        cases hfound
        exact hnear.read_eq there
      next =>
        split at hfound
        next there =>
          cases hfound
          exact hremote.read_eq there
        · cases hfound
    simp only [loadState, henv, henv', hsource, hfound, readState, hread]

theorem EnvironmentText.encodable {settings : Settings} (h : EnvironmentText settings fs e) :
    e.all Encoding.encodable = true := by
  obtain ⟨bytes, cs, -, -, rfl⟩ := h
  exact List.all_eq_true.mpr (List.forall_mem_map.mpr fun _ _ => rfl)

def stateName : Text := Settings.default.localStatePath

def workspaceDirectory (e : Text) : Text := Settings.default.workspaceStateDir ++ slash :: e

theorem workspaceDirectory_ne_nil : workspaceDirectory e ≠ [] :=
  List.append_ne_nil_of_right_ne_nil _ (List.cons_ne_nil _ _)

theorem relative_workspaceDirectory : Relative (workspaceDirectory e) :=
  relative_append (relative_of_notMem (by decide)) (by decide)

theorem relative_stateName : Relative stateName := relative_of_notMem (by decide)

theorem workspaceStatePath_eq_append (e : Text) :
    Settings.default.workspaceStatePath e = workspaceDirectory e ++ slash :: stateName := by
  simp only [Settings.workspaceStatePath, workspaceDirectory, List.append_assoc]
  rfl

theorem workspaceStatePath_eq_join (e : Text) :
    Settings.default.workspaceStatePath e = join (workspaceDirectory e ++ [slash]) stateName := by
  have hstem : stem (workspaceDirectory e ++ [slash]) = workspaceDirectory e ++ [slash] := by
    simp [stem]
  rw [join_eq_stem (List.append_ne_nil_of_right_ne_nil _ (List.cons_ne_nil _ _)) relative_stateName,
    hstem, workspaceStatePath_eq_append, List.append_assoc]
  rfl

theorem names_workspaceDirectory (e : Text) :
    names (workspaceDirectory e) = Settings.default.workspaceStateDir :: names e := by
  have hparts : parts (workspaceDirectory e) =
      parts Settings.default.workspaceStateDir ++ parts e := Text.splitOn_append slash _ e
  rw [names, hparts, parts_name (by decide)]
  rfl

section

variable (htree : fs.Tree)
include htree

/-- The state file of a workspace is the default one only where its directory is the working
directory. -/
theorem locate_workspaceDirectory
    (h : fs.locate true (Settings.default.workspaceStatePath e) = .ok r)
    (hr : r.1 = fs.current ++ [stateName]) :
    fs.locate true (workspaceDirectory e) = .ok (fs.current, .directory) := by
  have hd : workspaceDirectory e ≠ [] := workspaceDirectory_ne_nil
  rw [workspaceStatePath_eq_join] at h
  obtain ⟨q, hleads, hshort, hlast⟩ := htree.exists_parent
    (List.append_ne_nil_of_left_ne_nil hd _) (by decide) (by decide) h
  have hplace : r.1 = q ++ [stateName] := go_place (by decide) hlast
  obtain rfl : q = fs.current := List.append_cancel_right (hplace.symm.trans hr)
  exact htree.locate_of_leads ((leads_slash hd).mp hleads)
    (hshort.of_sublist (List.sublist_append_left _ _))

/-- Only two dots lead from the directory of the workspaces back to the working directory. -/
theorem dotdot_of_workspaceDirectory
    (h : fs.locate true (workspaceDirectory e) = .ok (fs.current, .directory)) :
    dotdot ∈ parts e := by
  by_contra hup
  have hnames : dotdot ∉ names (workspaceDirectory e) := by
    rw [names_workspaceDirectory, List.mem_cons, not_or]
    exact ⟨by decide, fun hmem => hup (mem_names.mp hmem).1⟩
  have hplace := htree.locate_place relative_workspaceDirectory hnames h
  rw [names_workspaceDirectory] at hplace
  simp at hplace

/-- Where the directory of a workspace is the working directory, its state file is the default one. -/
theorem locate_workspaceStatePath
    (h : fs.locate true (workspaceDirectory e) = .ok (fs.current, .directory))
    (he : e.all Encoding.encodable = true) (hshort : Short (Settings.default.workspaceStatePath e)) :
    fs.locate true (Settings.default.workspaceStatePath e) = fs.locate true stateName := by
  have hleads := htree.leads_of_locate h
  have hd : workspaceDirectory e ++ [slash] ≠ [] :=
    List.append_ne_nil_of_left_ne_nil workspaceDirectory_ne_nil _
  have hslash : Leads fs (workspaceDirectory e ++ [slash]) fs.current :=
    (leads_slash workspaceDirectory_ne_nil).mpr hleads
  have hpath : Settings.default.workspaceStatePath e ≠ [] := by
    rw [workspaceStatePath_eq_append]
    exact List.append_ne_nil_of_left_ne_nil workspaceDirectory_ne_nil _
  have hnul : nulMark ∉ Settings.default.workspaceStatePath e := by
    rw [workspaceStatePath_eq_join]
    exact notMem_join (by decide) hslash.noNul (by decide)
  have hcode : (Settings.default.workspaceStatePath e).all Encoding.encodable = true := by
    rw [workspaceStatePath_eq_append, workspaceDirectory, List.all_append, List.all_append,
      List.all_cons, he]
    decide
  rw [locate_eq_find hcode, locate_eq_find (by decide), find_eq hpath hnul hshort,
    workspaceStatePath_eq_join, htree.walk_eq, pathSteps_join hd (by decide) (by decide),
    startOf_join hd relative_stateName, go_append hslash.go_eq,
    find_eq (by decide) (by decide) (by decide), htree.walk_eq,
    startOf_of_relative relative_stateName, pathSteps_name (by decide) (by decide)]

/-- A path of other names leads past the default state file. -/
theorem ne_state_of_names (hrel : Relative p) (hup : dotdot ∉ names p) (hne : names p ≠ [stateName]) :
    ∀ r, fs.locate true p = .ok r → r.1 ≠ fs.current ++ [stateName] := by
  intro r h hr
  rw [htree.locate_place hrel hup h] at hr
  exact hne (List.append_cancel_left hr)

end

section

variable (htree : fs.Tree) (htree' : fs'.Tree)
  (hdiffer : DifferAt (fs.current ++ [stateName]) fs fs')
include htree htree' hdiffer

theorem alike_of_names (hrel : Relative p) (hup : dotdot ∉ names p) (hne : names p ≠ [stateName]) :
    Alike fs fs' p := by
  refine hdiffer.alike htree htree' (ne_state_of_names htree hrel hup hne) ?_
  rw [← hdiffer.current]
  exact ne_state_of_names htree' hrel hup hne

theorem EnvironmentText.of_differAt (h : EnvironmentText .default fs e) :
    EnvironmentText .default fs' e := by
  obtain ⟨bytes, cs, hread, hdecode, he⟩ := h
  have halike : Alike fs fs' Settings.default.environmentFile :=
    alike_of_names htree htree' hdiffer (by decide) (by decide) (by decide)
  have hclean : clean Settings.default.environmentFile = Settings.default.environmentFile := by decide
  obtain ⟨place, hlocate⟩ := locate_of_read hread
  rw [hclean] at hlocate
  have there : fs.exists? Settings.default.environmentFile = true := exists?_eq_true.mpr ⟨_, hlocate⟩
  exact ⟨bytes, cs, (halike.read_eq there).trans hread, hdecode, he⟩

/-- The state file of a workspace, where its directory is not the working directory. -/
theorem alike_workspaceStatePath
    (h : fs.locate true (workspaceDirectory e) ≠ .ok (fs.current, .directory)) :
    Alike fs fs' (Settings.default.workspaceStatePath e) := by
  refine hdiffer.alike htree htree' ?_ ?_
  · exact fun r hr hplace => h (locate_workspaceDirectory htree hr hplace)
  · intro r hr hplace
    rw [← hdiffer.current] at hplace
    have hdirectory := locate_workspaceDirectory htree' hr hplace
    have hne : fs'.current ≠ fs.current ++ [stateName] := by simp [hdiffer.current]
    have hback := hdiffer.symm.locate htree' htree hdirectory hne
    rw [hdiffer.current] at hback
    exact h hback

end

/-- Two trees with the same named workspace, which differ at the default state file alone. Loading
state comes to an end and is the same in both, unless the directory of the workspace leads back to
the working directory. Only two dots in the name can do so, and the state file of the workspace is
the default one then. -/
theorem loadState_of_workspace (hsettings : config.settings = .default) (htree : fs.Tree)
    (htree' : fs'.Tree) (hdiffer : DifferAt (fs.current ++ [stateName]) fs fs')
    (hnames : NamesWorkspace .default fs e) (s : Session) :
    (fs.locate true (workspaceDirectory e) ≠ .ok (fs.current, .directory) →
        (s.loadState config fs).failure = none ∧ s.loadState config fs' = s.loadState config fs) ∧
      (fs.locate true (workspaceDirectory e) = .ok (fs.current, .directory) →
        dotdot ∈ parts e ∧ (Short (Settings.default.workspaceStatePath e) →
          fs.locate true (Settings.default.workspaceStatePath e) = fs.locate true stateName)) := by
  refine ⟨fun hother => ⟨?_, ?_⟩, fun hback => ⟨?_, ?_⟩⟩
  · have henv := hnames.named.readEnvironment
    rw [← hsettings] at henv
    exact failure_loadState henv s
  · have henv := hnames.named.readEnvironment
    have henv' := (hnames.named.of_differAt htree htree' hdiffer).readEnvironment
    rw [← hsettings] at henv henv'
    refine loadState_congr henv henv' ?_ ?_ s
    · rw [hsettings, hnames.localStatePath]
      exact alike_workspaceStatePath htree htree' hdiffer hother
    · rw [hsettings]
      exact alike_of_names htree htree' hdiffer (by decide) (by decide) (by decide)
  · exact dotdot_of_workspaceDirectory htree hback
  · exact locate_workspaceStatePath htree hback hnames.named.encodable

def markedFiles (marker : String) : FileSystem :=
  ((FileSystem.empty []).write (text ".terraform/environment")
    (Encoding.encode (text marker))).makeDirectory (text "terraform.tfstate.d")

theorem tree_markedFiles (marker : String) : (markedFiles marker).Tree :=
  ((tree_empty (List.forall_mem_nil _)).write (by decide) (by decide) _).makeDirectory (by decide)

def stateBytes : Bytes := Encoding.encode (text "\x7b\"serial\": 3\x7d")

def withState (fs : FileSystem) : FileSystem :=
  fs.insert (fs.current ++ [stateName]) (.file stateBytes)

theorem tree_withState (htree : fs.Tree) (hfree : fs.node? (fs.current ++ [stateName]) = none) :
    (withState fs).Tree := by
  refine htree.insert (node?_of_initial List.prefix_rfl)
    ⟨by decide, by decide, by decide, by decide, by decide⟩ nofun fun hdirectory => ?_
  cases hfree.symm.trans hdirectory

theorem loadState_of_workspace_staging :
    let fs := markedFiles "staging"
    DifferAt (fs.current ++ [stateName]) fs (withState fs) ∧
      NamesWorkspace .default fs (text "staging") ∧
      fs.locate true (workspaceDirectory (text "staging")) ≠ .ok (fs.current, .directory) ∧
      (empty.loadState (.standard .default) fs).failure = none ∧
      empty.loadState (.standard .default) (withState fs) =
        empty.loadState (.standard .default) fs := by
  intro fs
  have hfree : fs.node? (fs.current ++ [stateName]) = none := by
    subst fs
    decide +kernel
  have hnames : NamesWorkspace .default fs (text "staging") := by
    subst fs
    exact ⟨⟨Encoding.encode (text "staging"), "staging".toList, by decide +kernel, by decide +kernel, by decide⟩,
      by decide, by decide⟩
  have hother : fs.locate true (workspaceDirectory (text "staging")) ≠
      .ok (fs.current, .directory) := by
    have habsent : fs.locate true (workspaceDirectory (text "staging")) = .error .absent := by
      subst fs
      decide +kernel
    intro hback
    cases habsent.symm.trans hback
  have htree : fs.Tree := tree_markedFiles "staging"
  have hdiffer := differAt_insert hfree stateBytes
  exact ⟨hdiffer, hnames, hother, (loadState_of_workspace rfl htree (tree_withState htree hfree)
    hdiffer hnames empty).1 hother⟩

/-- A workspace of the name of two dots has the default state file for its own. -/
theorem dotted_workspace_reads_default :
    let fs := markedFiles ".."
    fs.Tree ∧ (withState fs).Tree ∧ DifferAt (fs.current ++ [stateName]) fs (withState fs) ∧
      NamesWorkspace .default fs dotdot ∧
      (empty.loadState (.standard .default) fs).session.state.serial = 0 ∧
      (empty.loadState (.standard .default) fs).session.metrics.stateSource = Metrics.noSource ∧
      (empty.loadState (.standard .default) (withState fs)).session.state.serial = 3 ∧
      (empty.loadState (.standard .default) (withState fs)).session.metrics.stateSource =
        Metrics.localSource := by
  intro fs
  have hfree : fs.node? (fs.current ++ [stateName]) = none := by
    subst fs
    decide +kernel
  have hnames : NamesWorkspace .default fs dotdot := by
    subst fs
    exact ⟨⟨Encoding.encode dotdot, "..".toList, by decide +kernel, by decide +kernel, by decide⟩, by decide, by decide⟩
  have htree : fs.Tree := tree_markedFiles ".."
  have hdiffer := differAt_insert hfree stateBytes
  have htree' := tree_withState htree hfree
  have henv := hnames.named.readEnvironment
  have henv' := (hnames.named.of_differAt htree htree' hdiffer).readEnvironment
  have hnone : stateSource? .default fs (Settings.default.workspaceStatePath dotdot) = none := by
    subst fs
    decide +kernel
  have hsome : stateSource? .default (withState fs) (Settings.default.workspaceStatePath dotdot) =
      some (Settings.default.workspaceStatePath dotdot, Metrics.localSource) := by
    subst fs
    decide +kernel
  have hread : (withState fs).read (Settings.default.workspaceStatePath dotdot) = .ok stateBytes := by
    subst fs
    decide +kernel
  have hdecode : State.decode stateBytes = .passed { State.empty with serial := 3 } := by decide +kernel
  refine ⟨htree, htree', hdiffer, hnames, ?_, ?_, ?_, ?_⟩
  · simp only [loadState, Config.standard, henv, hnames.localStatePath, hnone]
    rfl
  · simp only [loadState, Config.standard, henv, hnames.localStatePath, hnone]
    rfl
  · simp only [loadState, Config.standard, henv', hnames.localStatePath, hsome, readState, hread,
      hdecode, Step.after]
  · simp only [loadState, Config.standard, henv', hnames.localStatePath, hsome, readState, hread,
      hdecode, Step.after]
    rfl

end Session

end Terraload
