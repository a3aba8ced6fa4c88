import Mathlib.Data.List.Nodup
import Mathlib.Data.List.Perm.Basic
import Terraload.Proofs.FileSystem.Searching
/-!
Two file systems that have the same at every place, but list the names in a directory in different
orders. Every path leads to the same in both, and a search finds the same paths in some order;
sorted, they are the same row.
-/
namespace Terraload

open Terraload.Path

namespace FileSystem

variable {fs fs' : FileSystem}

/-- Two file systems that start from the same directory and have the same at every place. The order
in which it came there has no say. -/
structure SameFiles (fs fs' : FileSystem) : Prop where
  current : fs'.current = fs.current
  mem_nodes : ∀ e, e ∈ fs'.nodes ↔ e ∈ fs.nodes

theorem lookup_eq_some (fs : FileSystem) (p : Place) (node : Node) :
    fs.nodes.lookup p = some node ↔ (p, node) ∈ fs.nodes := by
  constructor
  · intro h
    obtain ⟨before, after, hnodes, -⟩ := List.lookup_eq_some_iff.mp h
    simp [hnodes]
  · intro h
    obtain ⟨before, after, hnodes⟩ := List.append_of_mem h
    refine List.lookup_eq_some_iff.mpr ⟨before, after, hnodes, fun e he => ?_⟩
    have hunique := fs.unique
    rw [hnodes, List.map_append, List.map_cons] at hunique
    have hne : p ≠ e.1 := fun heq =>
      (List.nodup_append.mp hunique).2.2 e.1 (List.mem_map_of_mem he) p List.mem_cons_self heq.symm
    simpa using hne

theorem walkWith_congr (follow : Bool) (jump : Place → List Text → Except PathError (Place × Node))
    (h : ∀ p, fs'.node? p = fs.node? p) (here : Place) (steps : List Text) :
    walkWith fs' follow jump here steps = walkWith fs follow jump here steps := by
  induction steps generalizing here with
  | nil => rfl
  | cons c rest ih => simp only [walkWith, h, ih]

theorem walk_congr (follow : Bool) (h : ∀ p, fs'.node? p = fs.node? p) (limit : Nat) :
    fs'.walk follow limit = fs.walk follow limit := by
  induction limit with
  | zero =>
    funext here steps
    exact walkWith_congr follow _ h here steps
  | succ limit ih =>
    funext here steps
    rw [walk, walk, ih, walkWith_congr follow _ h]

namespace SameFiles

variable (h : SameFiles fs fs')
include h

theorem perm_nodes : fs.nodes.Perm fs'.nodes :=
  (List.perm_ext_iff_of_nodup fs.unique.of_map fs'.unique.of_map).mpr
    fun e => (h.mem_nodes e).symm

theorem node?_eq (p : Place) : fs'.node? p = fs.node? p := by
  rw [node?, node?, h.current]
  split
  · rfl
  · ext node
    rw [lookup_eq_some, lookup_eq_some, h.mem_nodes]

theorem perm_children (p : Place) : (fs.children p).Perm (fs'.children p) :=
  h.perm_nodes.filterMap _

theorem locate_eq (follow : Bool) (p : Text) : fs'.locate follow p = fs.locate follow p := by
  rw [locate, locate, find, find, h.current, walk_congr follow h.node?_eq]

theorem exists?_eq (p : Text) : fs'.exists? p = fs.exists? p := by
  rw [exists?, exists?, h.locate_eq]

theorem linkExists?_eq (p : Text) : fs'.linkExists? p = fs.linkExists? p := by
  rw [linkExists?, linkExists?, h.locate_eq]

theorem isDirectory_eq (p : Text) : fs'.isDirectory p = fs.isDirectory p := by
  rw [isDirectory, isDirectory, h.locate_eq]

theorem read_eq (p : Text) : fs'.read p = fs.read p := by
  simp only [FileSystem.read, h.locate_eq]

/-- A directory lists the same names in both, and what is none is listed in neither. -/
theorem list_cases (p : Text) :
    (∃ e, fs.list p = .error e ∧ fs'.list p = .error e) ∨
      ∃ q, fs.list p = .ok (fs.children q) ∧ fs'.list p = .ok (fs'.children q) := by
  simp only [list, h.locate_eq]
  split
  next q _ => exact .inr ⟨q, rfl, rfl⟩
  next => exact .inl ⟨_, rfl, rfl⟩
  next e _ => exact .inl ⟨e, rfl, rfl⟩

end SameFiles

end FileSystem

namespace Glob

variable {fs fs' : FileSystem} {ns ns' : List Text}

/-- In order, the same paths are the same row. -/
theorem mergeSort_eq (h : ns.Perm ns') : ns.mergeSort Text.le = ns'.mergeSort Text.le :=
  mergeSort_of_perm (h.trans (List.mergeSort_perm ns' _).symm) (pairwise_mergeSort ns')

theorem greatest_perm {ms ms' : List Nat} (h : ms.Perm ms') : greatest ms = greatest ms' := by
  induction h with
  | nil => rfl
  | cons m _ ih => exact congrArg (max m) ih
  | swap m m' ms => exact Nat.max_left_comm m' m _
  | trans _ _ ih ih' => exact ih.trans ih'

variable (h : FileSystem.SameFiles fs fs')
include h

theorem names_perm (directories : Bool) (d : Text) :
    (names fs directories d).Perm (names fs' directories d) := by
  simp only [names]
  obtain ⟨e, hlist, hlist'⟩ | ⟨q, hlist, hlist'⟩ := h.list_cases (if d.isEmpty then dot else d)
  · rw [hlist, hlist']
  · rw [hlist, hlist']
    simp only [h.isDirectory_eq]
    split
    · exact (h.perm_children q).filter _
    · exact h.perm_children q

theorem visible_perm (directories : Bool) (d : Text) :
    (visible fs directories d).Perm (visible fs' directories d) :=
  (names_perm h directories d).filter _

theorem allBelow_perm (directories : Bool) (limit : Nat) (d : Text) :
    (allBelow fs directories limit d).Perm (allBelow fs' directories limit d) := by
  induction limit generalizing d with
  | zero => exact .refl _
  | succ limit ih =>
    rw [allBelow, allBelow]
    exact (visible_perm h directories d).flatMap fun n _ => ((ih (below d n)).map _).cons n

theorem inDirectory_perm (deep directories : Bool) (d part : Text) :
    (inDirectory fs deep directories d part).Perm (inDirectory fs' deep directories d part) := by
  simp only [inDirectory, single, h.isDirectory_eq, h.linkExists?_eq]
  split
  · exact .refl _
  split
  · exact (allBelow_perm h directories depthLimit d).append_left _
  · exact (names_perm h directories d).filter _

theorem search_perm (deep directories : Bool) (limit : Nat) (p : Text) :
    (search fs deep limit directories p).Perm (search fs' deep limit directories p) := by
  induction limit generalizing directories p with
  | zero => exact .refl _
  | succ limit ih =>
    cases hmagic : Wildcard.isMagic p with
    | false =>
      rw [search_plain limit hmagic, search_plain limit hmagic, h.isDirectory_eq, h.linkExists?_eq]
    | true =>
      by_cases hdir : (split p).1 = []
      · rw [search_part limit hmagic hdir, search_part limit hmagic hdir]
        exact inDirectory_perm h deep directories [] p
      · rw [search_rows limit hmagic hdir, search_rows limit hmagic hdir]
        have hparents : (parents fs deep limit p).Perm (parents fs' deep limit p) := by
          simp only [parents]
          split
          · exact ih true (split p).1
          · exact .refl _
        exact hparents.flatMap fun d _ => (inDirectory_perm h deep directories d _).map _

theorem parents_perm (deep : Bool) (limit : Nat) (p : Text) :
    (parents fs deep limit p).Perm (parents fs' deep limit p) := by
  simp only [parents]
  split
  · exact search_perm h deep true limit _
  · exact .refl _

/-- A pattern finds the same row of paths in both. A deep pattern that starts with two stars does not
count here: the path it finds first may be dropped, and which one this is depends on the order. -/
theorem paths_eq (deep : Bool) {p : Text} (hp : (deep && p.take 2 == deepMark) = false) :
    paths fs' deep p = paths fs deep p := by
  have hunlisted : unlisted? fs' p = unlisted? fs p := by
    unfold unlisted?
    split
    · rfl
    next d _ =>
      obtain ⟨e, hlist, hlist'⟩ | ⟨q, hlist, hlist'⟩ := h.list_cases d <;> rw [hlist, hlist']
  simp only [paths, hunlisted, hp, Bool.false_eq_true, if_false,
    mergeSort_eq (search_perm h deep false (p.length + 1) p)]

theorem depthBelow_eq (directories : Bool) (limit : Nat) (d : Text) :
    depthBelow fs' directories limit d = depthBelow fs directories limit d := by
  induction limit generalizing d with
  | zero => rfl
  | succ limit ih =>
    simp only [depthBelow, ih]
    exact (greatest_perm ((visible_perm h directories d).map _)).symm

theorem levelsFrom_eq (deep directories : Bool) (limit : Nat) (p : Text) :
    levelsFrom fs' deep limit directories p = levelsFrom fs deep limit directories p := by
  induction limit generalizing directories p with
  | zero => rfl
  | succ limit ih =>
    have hdepth : greatest ((parents fs' deep limit p).map (depthBelow fs' directories depthLimit)) =
        greatest ((parents fs deep limit p).map (depthBelow fs directories depthLimit)) := by
      rw [funext (depthBelow_eq h directories depthLimit)]
      exact (greatest_perm ((parents_perm h deep limit p).map _)).symm
    simp only [levelsFrom, ih, hdepth]

theorem levels_eq (deep : Bool) (p : Text) : levels fs' deep p = levels fs deep p :=
  levelsFrom_eq h deep false (p.length + 1) p

end Glob

end Terraload
