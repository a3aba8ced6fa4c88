import Terraload.Proofs.Session.Sequence
/-!
A list of override files in two calls. Nothing but the session goes from one path to the next, so that
a list can be parted anywhere: the calls for its parts do what the call for the whole does, and write
one more opening entry.
-/
namespace Terraload.Session

variable {config : Config} {fs : FileSystem}

theorem loadTfvarsFiles_eq_row :
    loadTfvarsFiles config fs = Step.row (loadTfvarsFile config fs) := by
  funext paths
  induction paths with
  | nil => rfl
  | cons path rest ih =>
    funext s
    rw [loadTfvarsFiles, ih]
    rfl

/-- A list of override files, from any session, as a whole and in two parts. Where a path of the
first part fails, the whole does what the first part does. Else the second part goes on from there
and ends as the whole does: with the same session and the same failure, if there is one. The entries
are the same but for the opening one of the second call. -/
theorem loadTfvars_append (config : Config) (fs : FileSystem) (xs ys : List Text) (s : Session) :
    let opening := LogEntry.of .info "loading_tfvars" []
    let whole := s.loadTfvars config fs (xs ++ ys)
    let first := s.loadTfvars config fs xs
    let second := first.session.loadTfvars config fs ys
    (∃ f, first.failure = some f ∧ whole = first) ∨
      first.failure = none ∧ ∃ entries more,
        first.log = opening :: entries ∧ second.log = opening :: more ∧
        whole = ⟨second.session, opening :: (entries ++ more), second.failure⟩ := by
  intro opening whole first second
  have hfiles : loadTfvarsFiles config fs (xs ++ ys) s =
      (loadTfvarsFiles config fs xs s).andThen (loadTfvarsFiles config fs ys) := by
    rw [loadTfvarsFiles_eq_row, Step.row_append]
  have hwhole : whole = first.andThen (loadTfvarsFiles config fs ys) :=
    calc whole
      _ = (loadTfvarsFiles config fs (xs ++ ys) s).after [opening] := rfl
      _ = first.andThen (loadTfvarsFiles config fs ys) := by
        rw [hfiles, ← Step.after_andThen]
        rfl
  cases h : first.failure with
  | some f => exact .inl ⟨f, rfl, hwhole.trans (Step.andThen_of_failed h _)⟩
  | none =>
    rw [Step.andThen_of_ended h] at hwhole
    exact .inr ⟨rfl, (loadTfvarsFiles config fs xs s).log,
      (loadTfvarsFiles config fs ys first.session).log, rfl, rfl, hwhole⟩

end Terraload.Session
