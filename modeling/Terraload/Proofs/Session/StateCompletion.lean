import Terraload.Proofs.Session.StateSource
/-!
When loading state fails. Whatever the files hold, only the path of the environment file can raise a
failure: there is a NUL in it, or a code point that cannot be encoded. This is noticed before anything
else is looked at.
-/
namespace Terraload.Session

open Terraload.Path FileSystem

variable {config : Config} {fs : FileSystem}

/-- The environment file is looked for without a failure of its path. -/
theorem readEnvironment_ok (h : ∀ f, fs.read config.settings.environmentFile = .error f →
    ∃ e, f = .system e) : ∃ environment, readEnvironment config.settings fs = .ok environment := by
  unfold readEnvironment
  split
  · exact ⟨_, rfl⟩
  next hother hread => exact absurd (h _ hread).choose_spec (hother _)
  · split <;> exact ⟨_, rfl⟩

theorem loadState_of_read {f : Failure} (h : fs.read config.settings.environmentFile = .error f)
    (hf : ∀ e, f ≠ .system e) (s : Session) :
    s.loadState config fs = ⟨s, [LogEntry.of .info "loading_environment" []], some f⟩ := by
  have henv : readEnvironment config.settings fs = .error f := by
    rw [readEnvironment, h]
    cases f with
    | system e => exact absurd rfl (hf e)
    | _ => rfl
  rw [loadState, henv]

/-- Loading state comes to an end in any session and over any files, unless the path of the
environment file has a NUL in it, or leads nowhere and cannot be encoded. Then it fails for this
reason, and the session is what it was. -/
theorem loadState_ends_or_fails (config : Config) (fs : FileSystem) (s : Session) :
    let path := config.settings.environmentFile
    let opening := LogEntry.of .info "loading_environment" []
    (fs.exists? (clean path) = true ∨ ∀ a ∈ path, ¬ Foreign a) ∧
        (s.loadState config fs).failure = none ∨
      (nulMark ∈ path ∧ path.all Encoding.encodable = true) ∧
        s.loadState config fs = ⟨s, [opening], some .nulInPath⟩ ∨
      (fs.exists? (clean path) = false ∧ path.all Encoding.encodable = false) ∧
        s.loadState config fs = ⟨s, [opening], some (.unencodable (clean path))⟩ := by
  intro path opening
  cases hthere : fs.exists? (clean path) with
  | true =>
    obtain ⟨r, hlocate⟩ := exists?_eq_true.mp hthere
    obtain ⟨environment, henv⟩ := readEnvironment_ok fun f => system_of_locate hlocate
    exact .inl ⟨.inl rfl, failure_loadState henv s⟩
  | false =>
    cases hp : path.all Encoding.encodable with
    | false =>
      exact .inr (.inr ⟨⟨rfl, rfl⟩,
        loadState_of_read (read_of_unencodable hp hthere) (fun _ => nofun) s⟩)
    | true =>
      by_cases hnul : nulMark ∈ path
      · exact .inr (.inl ⟨⟨hnul, rfl⟩,
          loadState_of_read (read_of_nul hnul hp) (fun _ => nofun) s⟩)
      · obtain ⟨environment, henv⟩ := readEnvironment_ok fun f => system_of_read hnul hp
        refine .inl ⟨.inr fun a ha hforeign => ?_, failure_loadState henv s⟩
        obtain rfl | hcode := hforeign
        · exact hnul ha
        · rw [List.all_eq_true.mp hp a ha] at hcode
          cases hcode

/-- Settings with a NUL in the path of the environment file can be made, and with them loading state
fails. -/
theorem loadState_fails_on_nul :
    let fs := FileSystem.empty []
    let path := text "e\x00"
    let settings := { Settings.default with environmentFile := path }
    Settings.load fs [] [(text "environment_file", .text path)] = .ok (.passed settings) ∧
      (empty.loadState (.standard settings) fs).failure = some .nulInPath := by
  refine ⟨?_, ?_⟩ <;> decide +kernel

end Terraload.Session
