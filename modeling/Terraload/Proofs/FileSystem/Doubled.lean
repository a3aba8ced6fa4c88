import Terraload.Proofs.FileSystem.Descent
/-!
Slashes side by side in a path. What a search finds inside a directory has none, wherever it is put
behind a slash.
-/
namespace Terraload

open Terraload.Path FileSystem Glob

variable {fs : FileSystem} {deep directories : Bool} {d m n p part r : Text}

namespace Path

def doubled : Text → Nat
  | [] => 0
  | a :: p => (if a = slash ∧ p.head? = some slash then 1 else 0) + doubled p

theorem doubled_of_notMem (h : slash ∉ p) : doubled p = 0 := by
  induction p with
  | nil => rfl
  | cons a p ih =>
    obtain ⟨ha, hp⟩ := not_or.mp (List.mem_cons.not.mp h)
    rw [doubled, ih hp, if_neg fun hboth => ha hboth.1.symm]

/-- Two parts that meet in a slash. -/
theorem doubled_behind (p m : Text) :
    doubled (p ++ slash :: m) = doubled (p ++ [slash]) + doubled (slash :: m) := by
  induction p with
  | nil => simp [doubled]
  | cons a p ih =>
    have hhead : (p ++ slash :: m).head? = (p ++ [slash]).head? := by cases p <;> rfl
    rw [List.cons_append, List.cons_append, doubled, doubled, ih, hhead, Nat.add_assoc]

/-- Nothing doubles where no slash comes to an end. -/
theorem doubled_append (h : p.getLast? ≠ some slash) (m : Text) :
    doubled (p ++ m) = doubled p + doubled m := by
  induction p with
  | nil => simp [doubled]
  | cons a p ih =>
    by_cases hp : p = []
    · have ha : a ≠ slash := by simpa [hp] using h
      simp [hp, doubled, ha]
    · have hlast : (a :: p).getLast? = p.getLast? := List.getLast?_append_of_ne_nil [a] hp
      have hhead : (p ++ m).head? = p.head? := List.head?_append_of_ne_nil p hp
      rw [List.cons_append, doubled, doubled, hhead, ih (hlast ▸ h), Nat.add_assoc]

theorem doubled_append_le (p m : Text) : doubled p + doubled m ≤ doubled (p ++ m) := by
  by_cases h : p.getLast? = some slash
  · obtain ⟨init, rfl⟩ : ∃ init, p = init ++ [slash] :=
      ⟨p.dropLast, (List.dropLast_append_getLast? slash h).symm⟩
    rw [List.append_assoc, List.singleton_append, doubled_behind init m]
    exact Nat.add_le_add_left (Nat.le_add_left _ _) _
  · exact (doubled_append h m).ge

theorem doubled_le_of_infix (h : p <:+: m) : doubled p ≤ doubled m := by
  obtain ⟨front, back, rfl⟩ := h
  have hfront := doubled_append_le front p
  have hback := doubled_append_le (front ++ p) back
  omega

def Apart (r : Text) : Prop := doubled (slash :: r) = 0

theorem Apart.relative (h : Apart r) : Relative r := by
  intro hhead
  simp [Apart, doubled, hhead] at h

theorem apart_of_notMem (h : slash ∉ n) : Apart n := by
  have hhead : n.head? ≠ some slash := fun hhead => h (List.mem_of_head? hhead)
  rw [Apart, doubled, if_neg fun hboth => hhead hboth.2, doubled_of_notMem h]

theorem doubled_of_apart (hp : p.getLast? ≠ some slash) (hr : Apart r) :
    doubled (p ++ slash :: r) = doubled p := by
  rw [doubled_append hp, hr, Nat.add_zero]

theorem nil_join (m : Text) : join [] m = m := by
  unfold join
  split <;> rfl

theorem Apart.join (hr : Apart r) (hm : Apart m) : Apart (join r m) := by
  by_cases hnil : r = []
  · rwa [hnil, nil_join]
  · rw [join_eq_stem hnil hm.relative]
    obtain ⟨e, rfl, hstem⟩ | ⟨hlast, hstem⟩ := stem_cases r
    · have hbehind := doubled_behind (slash :: e) m
      rw [hstem, List.append_assoc]
      exact hbehind.trans (by rw [hm]; exact hr)
    · have hslash : (slash :: r).getLast? ≠ some slash := by
        rwa [← List.singleton_append, List.getLast?_append_of_ne_nil _ hnil]
      rw [hstem, List.append_assoc]
      exact (doubled_of_apart hslash hm).trans hr

theorem Apart.below (hm : Apart m) (hr : Apart r) : Apart (Glob.below m r) := by
  unfold Glob.below
  split
  · exact hr
  split
  · exact hm
  · exact hm.join hr

end Path

namespace Glob

theorem inDirectory_apart (hfs : fs.Named) (hpart : slash ∉ part)
    (hn : n ∈ inDirectory fs deep directories d part) : Apart n := by
  obtain rfl | hmatch := inDirectory_cases hn
  · exact apart_of_notMem hpart
  cases hmatch with
  | name hn => exact apart_of_notMem (matching_without hfs hn)
  | itself => exact apart_of_notMem List.not_mem_nil
  | below _ hn =>
    exact allBelow_forall (P := Apart) (fun hm => apart_of_notMem (names_without hfs hm))
      (fun hm hk => hm.below hk) hn

end Glob

end Terraload
