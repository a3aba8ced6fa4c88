import Mathlib.Data.List.ReduceOption
import Terraload.Proofs.FileSystem.Cleaning
import Terraload.Proofs.Session.Edit
/-!
Override files. Each path is looked at by itself: it gives the document of the first parser that
does not reject its file, or it is passed over. The documents are kept in the order of the paths, and
every path is counted once.
-/
namespace Terraload

namespace Parser

def Settles (p : Parser) : Prop := ∀ bytes b, p.parse bytes ≠ .broken b

end Parser

namespace Session

variable {config : Config} {fs : FileSystem} {path : Text} {d : Document}

/-- A path that gives a document: it leads to a file that can be read, and the first parser that
does not reject this file makes the document of it. -/
structure Gives (config : Config) (fs : FileSystem) (path : Text) (d : Document) : Prop where
  there : fs.exists? path = true
  parsed : ∃ bytes, fs.read path = .ok bytes ∧ Parser.FirstGives config.tfvarsParsers bytes d

def overrideEdit : Option Document → Edit
  | none => .tfvarsSkipped
  | some d => .tfvarsLoaded d

theorem loadTfvarsFile_eq (h : ∀ p ∈ config.tfvarsParsers, p.Settles) (fs : FileSystem)
    (path : Text) : ∃ found : Option Document, (∀ d, found = some d ↔ Gives config fs path d) ∧
      ∃ log, ∀ s, loadTfvarsFile config fs path s = ⟨(overrideEdit found).apply s, log, none⟩ := by
  obtain ⟨edits, log, failure, hfares⟩ := exists_overrideFares config fs path
  have hrun := hfares.run_eq
  cases hfares with
  | absent hthere =>
    have hnone (d : Document) : ¬ Gives config fs path d := fun hd =>
      Bool.noConfusion (hthere.symm.trans hd.there)
    exact ⟨none, fun d => iff_of_false nofun (hnone d), _, hrun⟩
  | unreadable _ hread =>
    have hnone (d : Document) : ¬ Gives config fs path d := fun hd => by
      obtain ⟨bytes, hbytes, -⟩ := hd.parsed
      cases hread.symm.trans hbytes
    exact ⟨none, fun d => iff_of_false nofun (hnone d), _, hrun⟩
  | failed hthere hread hf =>
    obtain ⟨e, rfl⟩ := FileSystem.system_of_exists? hthere hread
    exact absurd rfl (hf e)
  | rejected _ hread htried =>
    have hnone (d : Document) : ¬ Gives config fs path d := fun hd => by
      obtain ⟨bytes, hbytes, hgives⟩ := hd.parsed
      cases hread.symm.trans hbytes
      rw [← Parser.parseFirst_eq_some, htried.parseFirst_eq] at hgives
      cases hgives
    exact ⟨none, fun d => iff_of_false nofun (hnone d), _, hrun⟩
  | @loaded bytes d _ _ hthere hread htried =>
    refine ⟨some d, fun d' => ⟨?_, fun hd => ?_⟩, _, hrun⟩
    · rintro ⟨⟩
      exact ⟨hthere, bytes, hread, htried.firstGives rfl⟩
    · obtain ⟨bytes', hbytes, hgives⟩ := hd.parsed
      cases hread.symm.trans hbytes
      rw [← Parser.parseFirst_eq_some, htried.parseFirst_eq] at hgives
      exact Except.ok.inj hgives
  | broken _ _ htried =>
    obtain ⟨p, hp, hbroken⟩ := htried.exists_broken rfl
    exact absurd hbroken (h p hp _ _)

theorem loadTfvarsFiles_eq (h : ∀ p ∈ config.tfvarsParsers, p.Settles) (fs : FileSystem)
    (paths : List Text) : ∃ found : List (Option Document),
      List.Forall₂ (fun path o => ∀ d, o = some d ↔ Gives config fs path d) paths found ∧
      ∃ log, ∀ s, loadTfvarsFiles config fs paths s =
        ⟨(found.map overrideEdit).foldl Edit.apply s, log, none⟩ := by
  induction paths with
  | nil => exact ⟨[], .nil, [], fun s => rfl⟩
  | cons path paths ih =>
    obtain ⟨o, ho, log, hfile⟩ := loadTfvarsFile_eq h fs path
    obtain ⟨found, hfound, rest, hfiles⟩ := ih
    refine ⟨o :: found, .cons ho hfound, log ++ rest, fun s => ?_⟩
    simp only [loadTfvarsFiles, hfile, hfiles, Step.after, List.map_cons, List.foldl_cons]

/-- What the edits of a row of paths come to. -/
theorem foldl_overrideEdit (found : List (Option Document)) (s : Session) :
    (found.map overrideEdit).foldl Edit.apply s =
      { s with
        tfvars := s.tfvars ++ found.reduceOption
        metrics := { s.metrics with
          tfvarsLoaded := s.metrics.tfvarsLoaded + found.reduceOption.length
          tfvarsSkipped := s.metrics.tfvarsSkipped + found.countP Option.isNone } } := by
  induction found generalizing s with
  | nil => simp
  | cons o found ih =>
    rw [List.map_cons, List.foldl_cons, ih]
    cases o with
    | none =>
      simp [overrideEdit, Edit.apply, Metrics.recordTfvarsSkipped, Nat.add_assoc, Nat.add_comm 1]
    | some d =>
      simp [overrideEdit, Edit.apply, Metrics.recordTfvarsLoaded, Nat.add_assoc, Nat.add_comm 1]

/-- Where every parser gives a document or rejects, loading override files comes to an end. Each path
gives a document or none; the documents follow those there were, in the order of the paths, and each
path is counted once, for what it gave. Everything else stays as it was. -/
theorem loadTfvars_accounts (hparsers : ∀ p ∈ config.tfvarsParsers, p.Settles) (fs : FileSystem)
    (paths : List Text) (s : Session) :
    ∃ found : List (Option Document),
      List.Forall₂ (fun path o => ∀ d, o = some d ↔ Gives config fs path d) paths found ∧
      found.reduceOption.length + found.countP Option.isNone = paths.length ∧
      (s.loadTfvars config fs paths).failure = none ∧
      (s.loadTfvars config fs paths).session =
        { s with
          tfvars := s.tfvars ++ found.reduceOption
          metrics := { s.metrics with
            tfvarsLoaded := s.metrics.tfvarsLoaded + found.reduceOption.length
            tfvarsSkipped := s.metrics.tfvarsSkipped + found.countP Option.isNone } } := by
  obtain ⟨found, hfound, log, hrun⟩ := loadTfvarsFiles_eq hparsers fs paths
  have hsession : (s.loadTfvars config fs paths).session =
      (found.map overrideEdit).foldl Edit.apply s := by
    rw [loadTfvars, hrun, Step.after]
  refine ⟨found, hfound, ?_, ?_, hsession.trans (foldl_overrideEdit found s)⟩
  · rw [hfound.length_eq, List.countP_eq_length_filter]
    exact List.length_eq_reduceOption_length_add_filter_none.symm
  · rw [loadTfvars, hrun, Step.after]

def neverParser : Parser := .constant (text "never") (.rejected ⟨text "never", text "no"⟩)

def filledParser : Parser where
  name := text "filled"
  parse bytes :=
    if bytes.isEmpty then .rejected ⟨text "filled", text "nothing there"⟩
    else .document [(text "filled", .boolean true)]

def filledConfig : Config :=
  { Config.standard .default with
    templateParser := neverParser
    tfvarsParsers := [neverParser, filledParser] }

theorem filledConfig_settles : ∀ p ∈ filledConfig.tfvarsParsers, p.Settles := by
  intro p hp bytes b
  simp only [filledConfig, List.mem_cons, List.not_mem_nil, or_false] at hp
  obtain rfl | rfl := hp
  · exact nofun
  · simp only [filledParser]
    split <;> exact nofun

def overrideFiles : FileSystem :=
  ((((FileSystem.empty []).write (text "a.tfvars") (Encoding.encode (text "a"))).write
    (text "b.tfvars") []).makeDirectory (text "d")).link (text "gone") (text "nowhere")

def overridePaths : List Text :=
  [text "a.tfvars", text "gone", text "b.tfvars", [], text "d", text "a\x00", text "./a.tfvars"]

theorem loadTfvars_accounts_on_sample :
    let step := empty.loadTfvars filledConfig overrideFiles overridePaths
    (∀ p ∈ filledConfig.tfvarsParsers, p.Settles) ∧
      (step.session.tfvars.length, step.session.metrics.tfvarsLoaded,
        step.session.metrics.tfvarsSkipped) = (2, 2, 5) ∧
      ∃ found : List (Option Document),
        List.Forall₂ (fun path o => ∀ d, o = some d ↔ Gives filledConfig overrideFiles path d)
          overridePaths found ∧
        found.reduceOption.length + found.countP Option.isNone = overridePaths.length ∧
        step.failure = none ∧
        step.session =
          { empty with
            tfvars := empty.tfvars ++ found.reduceOption
            metrics := { empty.metrics with
              tfvarsLoaded := empty.metrics.tfvarsLoaded + found.reduceOption.length
              tfvarsSkipped := empty.metrics.tfvarsSkipped + found.countP Option.isNone } } := by
  intro step
  have hcounts : (step.session.tfvars.length, step.session.metrics.tfvarsLoaded,
      step.session.metrics.tfvarsSkipped) = (2, 2, 5) := by
    subst step
    decide +kernel
  exact ⟨filledConfig_settles, hcounts,
    loadTfvars_accounts filledConfig_settles overrideFiles overridePaths empty⟩

end Session

end Terraload
