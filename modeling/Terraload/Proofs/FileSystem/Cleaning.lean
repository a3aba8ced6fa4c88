import Terraload.Proofs.FileSystem.Links
/-!
A path and its cleaned form. What a path leads to, its cleaned form leads to, over links too, so a
file is read where the path says.
-/
namespace Terraload

open Terraload.Path

variable {fs : FileSystem} {p x : Text} {q : Place} {ns : List Text} {node : Node} {bytes : Bytes}
  {r : Place × Node}

namespace Path

theorem names_said (p : Text) : ∀ n ∈ names p, n ≠ [] ∧ slash ∉ n := fun _ hn =>
  ⟨(mem_names.mp hn).2.1, slash_notMem_of_mem_parts (mem_names.mp hn).1⟩

theorem names_slash (p : Text) : names (slash :: p) = names p := by
  rw [names, parts_root]
  rfl

/-- What stands behind the slashes that are kept says what the path says. -/
theorem exists_root (p : Text) : ∃ rest, p = root p ++ rest ∧ names p = names rest ∧
    (root p = [] ∧ Relative p ∨ root p = [slash] ∨ root p = [slash, slash]) := by
  obtain ⟨hrel, hroot⟩ | ⟨rest, rfl, -, hroot⟩ | ⟨rest, rfl⟩ := root_cases p
  · exact ⟨p, by rw [hroot]; rfl, rfl, .inl ⟨hroot, hrel⟩⟩
  · exact ⟨rest, by rw [hroot]; rfl, names_slash rest, .inr (.inl hroot)⟩
  -- Two slashes are kept, unless a third one follows; then one is.
  · have hnames : names (slash :: slash :: rest) = names rest := by rw [names_slash, names_slash]
    by_cases hrest : ∃ more, rest = slash :: more
    · obtain ⟨more, rfl⟩ := hrest
      exact ⟨slash :: slash :: more, rfl, names_slash _, .inr (.inl rfl)⟩
    · have hroot : root ([slash, slash] ++ rest) = [slash, slash] := by
        cases rest with
        | nil => rfl
        | cons a more =>
          have ha : a ≠ .char '/' := fun ha => hrest ⟨more, by rw [ha]; rfl⟩
          simp [root, slash, ha]
      exact ⟨rest, by rw [hroot], hnames, .inr (.inr hroot)⟩

theorem clean_of_row (hne : names p ≠ []) : clean p = root p ++ ofParts (names p) := by
  have hrow := row_ne_nil hne (names_said p)
  unfold clean
  split
  next hnil => exact absurd (List.append_eq_nil_iff.mp hnil).2 hrow
  next => rfl

theorem clean_of_names (h : Relative p) (hne : names p ≠ []) : clean p = ofParts (names p) := by
  rw [clean_of_row hne, root_of_relative h, List.nil_append]

theorem clean_ne_nil (p : Text) : clean p ≠ [] := by
  unfold clean
  split
  · decide
  next hne => exact hne

theorem clean_of_nil (h : Relative p) (hnil : names p = []) : clean p = dot := by
  rw [clean, root_of_relative h, hnil]
  rfl

theorem relative_clean (h : Relative p) : Relative (clean p) := by
  by_cases hne : names p = []
  · rw [clean_of_nil h hne]
    decide
  · rw [clean_of_names h hne]
    exact relative_row (names_said p)

theorem ofParts_sublist {ms : List Text} (h : ms.Sublist ns) :
    (ofParts ms).Sublist (ofParts ns) := by
  induction h with
  | slnil => exact .slnil
  | @cons ms ns n h ih =>
    by_cases hns : ns = []
    · rw [hns] at h
      rw [List.sublist_nil.mp h]
      exact List.nil_sublist _
    · rw [ofParts_cons hns]
      exact (ih.cons slash).trans (List.sublist_append_right _ _)
  | @cons_cons ms ns n h ih =>
    by_cases hms : ms = []
    · by_cases hns : ns = []
      · rw [hms, hns]
      · rw [hms, ofParts_cons hns]
        exact List.sublist_append_left _ _
    · have hns : ns ≠ [] := fun hnil => hms (List.sublist_nil.mp (hnil ▸ h))
      rw [ofParts_cons hms, ofParts_cons hns]
      exact (List.Sublist.refl n).append (ih.cons_cons slash)

/-- A cleaned path is a dot, or what is left of the path. -/
theorem clean_sublist (p : Text) : clean p = dot ∨ (clean p).Sublist p := by
  obtain ⟨rest, hp, hnames, -⟩ := exists_root p
  have hrest : (ofParts (names rest)).Sublist rest := by
    have hsub : (ofParts (names rest)).Sublist (ofParts (parts rest)) :=
      ofParts_sublist List.filter_sublist
    rwa [ofParts_parts] at hsub
  have hrow := hrest.append_left (root p)
  rw [← hnames, ← hp] at hrow
  unfold clean
  split
  · exact .inl rfl
  · exact .inr hrow

end Path

namespace FileSystem

/-- A cleaned path is not longer than the path. -/
theorem Short.clean (h : Short p) : Short (Path.clean p) := by
  obtain hdot | hsub := clean_sublist p
  · rw [hdot]
    decide
  · exact h.of_sublist hsub

theorem pathSteps_row (hne : ns ≠ []) (hs : ∀ n ∈ ns, n ≠ [] ∧ slash ∉ n) :
    pathSteps (ofParts ns) = ns := by
  have hlast := getLast?_row hne hs
  simp only [pathSteps]
  rw [if_neg (by simpa using hlast), parts_ofParts (fun n hn => (hs n hn).2) hne,
    List.filter_eq_self]
  exact fun n hn => by simpa using (hs n hn).1

theorem pathSteps_slash (hx : x ≠ []) : pathSteps (slash :: x) = pathSteps x := by
  obtain ⟨a, y, rfl⟩ := List.exists_cons_of_ne_nil hx
  simp only [pathSteps, parts_root, List.getLast?_cons_cons]
  rfl

theorem pathSteps_clean (hne : names p ≠ []) : pathSteps (Path.clean p) = names p := by
  have hsteps := pathSteps_row hne (names_said p)
  have hrow := row_ne_nil hne (names_said p)
  rw [clean_of_row hne]
  obtain ⟨rest, -, -, ⟨hroot, -⟩ | hroot | hroot⟩ := exists_root p
  · rw [hroot, List.nil_append, hsteps]
  · rw [hroot, List.singleton_append, pathSteps_slash hrow, hsteps]
  · rw [hroot, List.cons_append, List.singleton_append, pathSteps_slash (List.cons_ne_nil _ _),
      pathSteps_slash hrow, hsteps]

theorem pathSteps_clean_of_nil (hnil : names p = []) : pathSteps (Path.clean p) = [dot] := by
  rw [Path.clean, hnil]
  obtain ⟨rest, -, -, ⟨hroot, -⟩ | hroot | hroot⟩ := exists_root p <;> rw [hroot] <;> rfl

theorem startOf_clean (here : Place) (p : Text) : startOf here (Path.clean p) = startOf here p := by
  obtain ⟨rest, hp, -, ⟨-, hrel⟩ | hroot | hroot⟩ := exists_root p
  · rw [startOf_of_relative hrel, startOf_of_relative (relative_clean hrel)]
  · rw [hroot] at hp
    rw [Path.clean, hroot, hp]
    rfl
  · rw [hroot] at hp
    rw [Path.clean, hroot, hp]
    rfl

/-- What a path leads to, its cleaned form leads to. -/
theorem locate_clean (h : fs.locate true p = .ok r) : fs.locate true (Path.clean p) = .ok r := by
  obtain ⟨-, hnul, hshort, hwalked⟩ := locate_eq_ok.mp h
  have hnames := hwalked.filter
  rw [← names_eq_filter_pathSteps] at hnames
  refine locate_eq_ok.mpr ⟨clean_ne_nil p, notMem_clean (by decide) (by decide) hnul,
    hshort.clean, ?_⟩
  rw [startOf_clean]
  by_cases hne : names p = []
  · rw [pathSteps_clean_of_nil hne]
    rw [hne] at hnames
    exact .stay hnames
  · rw [pathSteps_clean hne]
    exact hnames

/-- A file that a path leads to is read through it. -/
theorem read_of_locate (h : fs.locate true p = .ok (q, .file bytes)) : fs.read p = .ok bytes := by
  simp only [read, locate_clean h]

/-- Nothing but the system keeps a path from being read that leads to something. -/
theorem system_of_exists? {f : Failure} (h : fs.exists? p = true) (hread : fs.read p = .error f) :
    ∃ e, f = .system e := by
  obtain ⟨r, hlocate⟩ := exists?_eq_true.mp h
  exact system_of_locate (locate_clean hlocate) hread

/-- A file that is read through a path is what the path leads to. -/
theorem node_of_read (hlocate : fs.locate true p = .ok (q, node)) (hread : fs.read p = .ok bytes) :
    node = .file bytes := by
  obtain ⟨place, hclean⟩ := locate_of_read hread
  cases (locate_clean hlocate).symm.trans hclean
  rfl

/-- What the names of a path lead to in a tree, the path leads to. -/
theorem Tree.go_names (htree : fs.Tree) (hrel : Relative p)
    (h : fs.locate true p = .ok (q, node)) : fs.go fs.current (names p) = .ok (q, node) := by
  obtain ⟨hp, hnul, hshort⟩ := short_of_locate h
  rw [locate_iff hp hnul hshort, htree.walk_eq, startOf_of_relative hrel] at h
  rw [names_eq_filter_pathSteps]
  exact go_filter h

end FileSystem

end Terraload
