import Terraload.Command
import Terraload.Proofs.Outcome
/-!
What it takes to be asked to load: no option of the program itself, the name of the command, and
options of the command that can be read and do not ask for help.
-/
namespace Terraload.Command

variable {arguments : List Text} {a : Arguments} {o : LoadOptions}

theorem inScope_eq_ok {α : Type} {scope : CommandScope} {v : Except UsageError α} {b : α} :
    inScope scope v = .ok b ↔ v = .ok b := by
  cases v <;> simp [inScope]

structure AsksToLoad (arguments : List Text) (a : Arguments) : Prop where
  readable : ∃ rest,
    Arguments.read programRules arguments = .ok ⟨[], CommandScope.loadName :: rest⟩ ∧
      Arguments.read loadRules rest = .ok a
  helpless : LoadOptions.isGiven "--help" a = false

theorem AsksToLoad.read_eq (h : AsksToLoad arguments a) :
    read arguments = inScope .load ((LoadOptions.ofArguments a).map .load) := by
  obtain ⟨⟨rest, hprogram, hread⟩, hhelp⟩ := h
  have hload : readLoad rest = (LoadOptions.ofArguments a).map .load := by
    rw [readLoad, hread, Outcome.ok_bind, hhelp]
    rfl
  rw [read, hprogram]
  exact congrArg (inScope .load) hload

theorem ofProgramOptions?_eq_none_iff {options : List (Text × Text)} :
    ofProgramOptions? options = none ↔ options = [] := by
  cases options <;> simp [ofProgramOptions?]

/-- The options of the program load nothing. -/
theorem ofProgramOptions?_ne_load (options : List (Text × Text)) :
    ofProgramOptions? options ≠ some (.load o) := by
  cases options with
  | nil => simp [ofProgramOptions?]
  | cons option options =>
    simp only [ofProgramOptions?]
    split <;> simp

theorem readUnknown_ne_load (name : Text) (arguments : List Text) :
    readUnknown name arguments ≠ .ok (.load o) := by
  intro h
  rw [readUnknown, Outcome.bind_eq_ok] at h
  obtain ⟨r, -, h⟩ := h
  split at h
  next c hc =>
    cases h
    exact ofProgramOptions?_ne_load _ hc
  · cases h

theorem readLoad_eq_load {rest : List Text} (h : readLoad rest = .ok (.load o)) :
    ∃ a, Arguments.read loadRules rest = .ok a ∧ LoadOptions.isGiven "--help" a = false ∧
      LoadOptions.ofArguments a = .ok o := by
  rw [readLoad, Outcome.bind_eq_ok] at h
  obtain ⟨a, hread, h⟩ := h
  split at h
  · cases h
  next hhelp =>
    obtain ⟨_, ho, heq⟩ := Outcome.map_eq_ok.mp h
    cases heq
    exact ⟨a, hread, Bool.eq_false_iff.mpr hhelp, ho⟩

theorem read_eq_load_iff : read arguments = .ok (.load o) ↔
    ∃ a, AsksToLoad arguments a ∧ LoadOptions.ofArguments a = .ok o := by
  constructor
  · intro h
    rw [read, Outcome.bind_eq_ok] at h
    obtain ⟨⟨options, others⟩, hprogram, h⟩ := h
    split at h
    next c hc =>
      cases h
      exact absurd hc (ofProgramOptions?_ne_load _)
    · cases h
    next name rest hnone hothers =>
      obtain rfl := ofProgramOptions?_eq_none_iff.mp hnone
      subst hothers
      split at h
      next hname =>
        rw [beq_iff_eq] at hname
        subst hname
        obtain ⟨a, hread, hhelp, ho⟩ := readLoad_eq_load (inScope_eq_ok.mp h)
        exact ⟨a, ⟨⟨rest, inScope_eq_ok.mp hprogram, hread⟩, hhelp⟩, ho⟩
      · exact absurd (inScope_eq_ok.mp h) (readUnknown_ne_load _ _)
  · rintro ⟨a, hasks, ho⟩
    rw [hasks.read_eq, ho]
    rfl

end Terraload.Command
