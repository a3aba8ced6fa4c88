import Mathlib.Data.List.Basic
import Terraload.Proofs.FileSystem.Searching
/-!
A path that leads to a file ends in a name, so its cleaned form is the row of its names.
-/
namespace Terraload

open Terraload.Path

namespace FileSystem

variable {fs : FileSystem} {here place : Place} {steps : List Text} {bytes : Bytes}

def EndsInName (steps : List Text) : Prop :=
  ∃ way n, steps = way ++ [n] ∧ n ≠ dot ∧ n ≠ dotdot

theorem EndsInName.cons (h : EndsInName steps) (c : Text) : EndsInName (c :: steps) := by
  obtain ⟨way, n, rfl, hn⟩ := h
  exact ⟨c :: way, n, rfl, hn⟩

/-- What stands in front of steps that are left does not matter. -/
theorem EndsInName.of_append {more : List Text} (h : EndsInName (more ++ steps))
    (hne : steps ≠ []) : EndsInName steps := by
  obtain ⟨way, n, heq, hn⟩ := h
  obtain rfl | ⟨front, m, rfl⟩ := List.eq_nil_or_concat' steps
  · exact absurd rfl hne
  · rw [← List.append_assoc] at heq
    obtain ⟨-, hm⟩ := List.append_inj' heq rfl
    exact ⟨front, n, by rw [hm], hn⟩

theorem EndsInName.of_walkWith {jump : Place → List Text → Except PathError (Place × Node)}
    (hjump : ∀ here steps, jump here steps = .ok (place, .file bytes) → EndsInName steps)
    (h : walkWith fs true jump here steps = .ok (place, .file bytes)) : EndsInName steps := by
  induction steps generalizing here with
  | nil => cases h
  | cons c rest ih =>
    unfold walkWith at h
    by_cases hdot : c = dot
    · rw [if_pos (by simpa using hdot)] at h
      exact (ih h).cons c
    by_cases hup : c = dotdot
    · rw [if_neg (by simpa using hdot), if_pos (by simpa using hup)] at h
      exact (ih h).cons c
    rw [if_neg (by simpa using hdot), if_neg (by simpa using hup)] at h
    -- The step goes down. It is the last one, or those behind it end in a name.
    by_cases hrest : rest = []
    · exact ⟨[], c, by rw [hrest]; rfl, hdot, hup⟩
    by_cases hlong : nameLimit < (Encoding.encode c).length
    · rw [if_pos hlong] at h
      cases h
    rw [if_neg hlong] at h
    cases hnode : fs.node? (here ++ [c]) with
    | none =>
      simp only [hnode] at h
      cases h
    | some node =>
      simp only [hnode] at h
      cases node with
      | directory => exact (ih h).cons c
      | file b =>
        dsimp only at h
        rw [if_neg (by simpa using hrest)] at h
        cases h
      | link t =>
        dsimp only at h
        rw [if_neg (by simp)] at h
        split at h
        · cases h
        · exact ((hjump _ _ h).of_append hrest).cons c

theorem EndsInName.of_walk {limit : Nat}
    (h : fs.walk true limit here steps = .ok (place, .file bytes)) : EndsInName steps := by
  induction limit generalizing here steps with
  | zero => exact .of_walkWith (by simp) h
  | succ limit ih => exact .of_walkWith (fun _ _ => ih) h

end FileSystem

open FileSystem

variable {fs : FileSystem} {path : Text} {bytes : Bytes}

theorem names_eq_filter_pathSteps (p : Text) : names p = (pathSteps p).filter (· != dot) := by
  have hsteps : ((parts p).filter fun c => !c.isEmpty).filter (· != dot) = names p := by
    rw [List.filter_filter, names]
    exact List.filter_congr fun c _ => Bool.and_comm _ _
  simp only [pathSteps]
  split
  · rw [List.filter_append, hsteps]
    simp
  · exact hsteps.symm

theorem names_clean (h : Relative path) : names (clean path) = names path := by
  have hsaid : ∀ n ∈ names path, n ≠ [] ∧ n ≠ dot := fun n hn => (mem_names.mp hn).2
  have hs : ∀ n ∈ names path, slash ∉ n := fun n hn => slash_notMem_of_mem_parts (mem_names.mp hn).1
  unfold clean
  rw [root_of_relative h, List.nil_append]
  split
  next hnil =>
    rw [← names_ofParts hsaid hs, hnil]
    rfl
  next => exact names_ofParts hsaid hs

/-- What is read is the file that the cleaned path leads to. -/
theorem FileSystem.locate_of_read (h : fs.read path = .ok bytes) :
    ∃ place, fs.locate true (clean path) = .ok (place, .file bytes) := by
  simp only [FileSystem.read] at h
  split at h
  next place b hlocate =>
    cases h
    exact ⟨place, hlocate⟩
  · cases h
  · cases h

theorem FileSystem.endsInName_of_locate {place : Place}
    (h : fs.locate true path = .ok (place, .file bytes)) : EndsInName (pathSteps path) := by
  rw [← find_eq_ok] at h
  simp only [find] at h
  split at h
  · cases h
  split at h
  · cases h
  split at h
  · cases h
  · exact .of_walk h

/-- A path that leads to a file does not end in a slash. -/
theorem FileSystem.part_ne_nil {place : Place}
    (h : fs.locate true path = .ok (place, .file bytes)) : (split path).2 ≠ [] := by
  obtain ⟨way, n, hsteps, hdot, -⟩ := endsInName_of_locate h
  obtain ⟨f, part, rfl, hf, hpart⟩ := exists_front path
  rw [split_front hf hpart]
  rintro rfl
  rw [List.append_nil] at hsteps
  cases hlast : f.getLast? with
  | none =>
    rw [List.getLast?_eq_none_iff.mp hlast] at hsteps
    exact List.append_ne_nil_of_right_ne_nil way (List.cons_ne_nil n []) hsteps.symm
  | some c =>
    obtain rfl := hf c hlast
    simp only [pathSteps, hlast, BEq.rfl, if_true] at hsteps
    exact hdot (List.cons.inj (List.append_inj' hsteps rfl).2).1.symm

/-- A path that leads to a file has a last name, which is not two dots. -/
theorem names_of_read (hrel : Relative path) (h : fs.read path = .ok bytes) :
    ∃ way n, names path = way ++ [n] ∧ n ≠ dotdot := by
  obtain ⟨place, hlocate⟩ := locate_of_read h
  obtain ⟨way, n, hsteps, hdot, hup⟩ := endsInName_of_locate hlocate
  refine ⟨way.filter (· != dot), n, ?_, hup⟩
  rw [← names_clean hrel, names_eq_filter_pathSteps, hsteps, List.filter_append,
    List.filter_cons_of_pos (by simpa using hdot), List.filter_nil]

/-- The cleaned form of a path that leads to a file is the row of its names. -/
theorem parts_normalize_of_read (hrel : Relative path) (h : fs.read path = .ok bytes) :
    parts (normalize path) = reduced path ∧ ∃ n ns, reduced path = n :: ns := by
  have hne : reduced path ≠ [] := by
    obtain ⟨way, n, hnames, hup⟩ := names_of_read hrel h
    rw [reduced, hnames, List.foldl_append, List.foldl_cons, List.foldl_nil, push_name hup]
    simp
  have hroot := root_of_relative hrel
  have hs : ∀ n ∈ reduced path, slash ∉ n := fun n hn => slash_notMem_of_mem_reduced hn
  have hsaid : [] ∉ reduced path := fun hn => ((settled_reduced path).said _ hn).1 rfl
  have htext : root path ++ ofParts (reduced path) ≠ [] := by
    rw [hroot, List.nil_append]
    exact ofParts_ne_nil hs hsaid hne
  refine ⟨?_, List.exists_cons_of_ne_nil hne⟩
  rw [normalize_of_ne htext, hroot, List.nil_append, parts_ofParts hs hne]

end Terraload
