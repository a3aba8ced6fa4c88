import Terraload.Session
/-!
Steps one behind another, up to the first that fails. A row of them can be parted anywhere.
-/
namespace Terraload.Step

variable {α : Type} {s : Step} {f : Failure}

/-- A step, and another from where it has ended. There is no other behind one that has failed. -/
def andThen (s : Step) (next : Session → Step) : Step :=
  match s with
  | ⟨s, log, some f⟩ => ⟨s, log, some f⟩
  | ⟨s, log, none⟩ => (next s).after log

theorem andThen_of_failed (h : s.failure = some f) (next : Session → Step) : s.andThen next = s := by
  cases s with
  | mk t log failure =>
    cases h
    rfl

theorem andThen_of_ended (h : s.failure = none) (next : Session → Step) :
    s.andThen next = (next s.session).after s.log := by
  cases s with
  | mk t log failure =>
    cases h
    rfl

theorem after_nil (s : Step) : s.after [] = s := rfl

theorem after_andThen (log : List LogEntry) (s : Step) (next : Session → Step) :
    (s.after log).andThen next = (s.andThen next).after log := by
  cases h : s.failure with
  | some f =>
    have hafter : (s.after log).failure = some f := h
    rw [andThen_of_failed h, andThen_of_failed hafter]
  | none =>
    have hafter : (s.after log).failure = none := h
    rw [andThen_of_ended h, andThen_of_ended hafter]
    simp only [after, List.append_assoc]

theorem andThen_assoc (s : Step) (next last : Session → Step) :
    (s.andThen next).andThen last = s.andThen fun t => (next t).andThen last := by
  cases h : s.failure with
  | some f => rw [andThen_of_failed h, andThen_of_failed h, andThen_of_failed h]
  | none => rw [andThen_of_ended h, andThen_of_ended h, after_andThen]

def row (run : α → Session → Step) : List α → Session → Step
  | [], s => ⟨s, [], none⟩
  | a :: as, s => (run a s).andThen (row run as)

theorem row_append (run : α → Session → Step) (xs ys : List α) (s : Session) :
    row run (xs ++ ys) s = (row run xs s).andThen (row run ys) := by
  induction xs generalizing s with
  | nil => exact (after_nil _).symm
  | cons a xs ih =>
    calc row run (a :: (xs ++ ys)) s
      _ = (run a s).andThen (row run (xs ++ ys)) := rfl
      _ = (run a s).andThen fun t => (row run xs t).andThen (row run ys) := by rw [funext ih]
      _ = (row run (a :: xs) s).andThen (row run ys) := (andThen_assoc ..).symm

end Terraload.Step
