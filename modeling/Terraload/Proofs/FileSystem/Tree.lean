import Terraload.Proofs.FileSystem.Readable
import Terraload.Proofs.FileSystem.Searching
/-!
File systems without links, as trees: every name stands in a directory that lists it. A path in one
leads on from where its directory leads, by the name that stands behind the directory.
-/
namespace Terraload

open Terraload.Path

structure ProperName (n : Text) : Prop where
  ne_nil : n ≠ []
  noSlash : slash ∉ n
  noNul : nulMark ∉ n
  ne_dot : n ≠ dot
  ne_dotdot : n ≠ dotdot

instance (n : Text) : Decidable (ProperName n) :=
  decidable_of_iff (n ≠ [] ∧ slash ∉ n ∧ nulMark ∉ n ∧ n ≠ dot ∧ n ≠ dotdot)
    ⟨fun ⟨hne, hslash, hnul, hdot, hdotdot⟩ => ⟨hne, hslash, hnul, hdot, hdotdot⟩,
      fun h => ⟨h.ne_nil, h.noSlash, h.noNul, h.ne_dot, h.ne_dotdot⟩⟩

namespace FileSystem

/-- A file system in which everything has a proper name; the directories above the start are listed
as all are. -/
structure Listed (fs : FileSystem) : Prop where
  proper : ∀ e ∈ fs.nodes, ∀ n ∈ e.1, ProperName n
  listed : ∀ p n, p ++ [n] <+: fs.current → n ∈ fs.children p

/-- A file system in which nothing is a link, and everything has a proper name in a directory; the
directories above the start are listed as all are. -/
structure Tree (fs : FileSystem) : Prop where
  proper : ∀ e ∈ fs.nodes, ∀ n ∈ e.1, ProperName n
  inDirectory : ∀ e ∈ fs.nodes, ∀ p n, e.1 = p ++ [n] → fs.node? p = some .directory
  unlinked : ∀ e ∈ fs.nodes, ∀ t, e.2 ≠ .link t
  listed : ∀ p n, p ++ [n] <+: fs.current → n ∈ fs.children p

variable {fs : FileSystem} {p q here : Place} {n c path : Text} {ns xs ys steps : List Text}
  {node : Node} {follow : Bool}

theorem node?_cases (h : fs.node? p = some node) :
    p <+: fs.current ∧ node = .directory ∨ (p, node) ∈ fs.nodes := by
  unfold node? at h
  split at h
  next hstart =>
    cases h
    exact .inl ⟨List.isPrefixOf_iff_prefix.mp hstart, rfl⟩
  next =>
    obtain ⟨before, after, hnodes, -⟩ := List.lookup_eq_some_iff.mp h
    rw [hnodes]
    exact .inr (by simp)

theorem node?_of_initial (h : p <+: fs.current) : fs.node? p = some .directory := by
  rw [node?, if_pos (List.isPrefixOf_iff_prefix.mpr h)]

theorem startOf_initial (here : Place) (path : Text) : startOf here path <+: here := by
  unfold startOf
  split
  · exact List.nil_prefix
  · exact List.prefix_rfl

theorem mem_children_of_mem {e : Place × Node} (he : e ∈ fs.nodes) (h : e.1 = p ++ [n]) :
    n ∈ fs.children p :=
  List.mem_filterMap.mpr ⟨e, he, by simp [h]⟩

theorem exists_of_mem_children (h : n ∈ fs.children p) : ∃ node, (p ++ [n], node) ∈ fs.nodes := by
  obtain ⟨⟨place, node⟩, he, heq⟩ := List.mem_filterMap.mp h
  cases hlast : place.getLast? with
  | none => simp [hlast] at heq
  | some m =>
    simp only [hlast, Option.ite_none_right_eq_some, Option.some.injEq, beq_iff_eq] at heq
    obtain ⟨rfl, rfl⟩ := heq
    exact ⟨node, by rwa [List.dropLast_append_getLast? m hlast]⟩

/-- Nothing is above the root. -/
theorem listed_of_root (hproper : ∀ e ∈ fs.nodes, ∀ n ∈ e.1, ProperName n) (h : fs.current = []) :
    fs.Listed where
  proper := hproper
  listed p n hbelow := by
    rw [h, List.prefix_nil, List.append_eq_nil_iff] at hbelow
    cases hbelow.2

namespace Listed

variable (hfs : fs.Listed)
include hfs

theorem mem_children : n ∈ fs.children p ↔ (fs.node? (p ++ [n])).isSome = true := by
  constructor
  · intro h
    obtain ⟨node, hmem⟩ := exists_of_mem_children h
    rw [node?]
    split
    · rfl
    · exact List.lookup_isSome_iff.mpr ⟨_, hmem, by simp⟩
  · intro h
    obtain ⟨node, hnode⟩ := Option.isSome_iff_exists.mp h
    obtain ⟨hstart, -⟩ | hmem := node?_cases hnode
    · exact hfs.listed p n hstart
    · exact mem_children_of_mem hmem rfl

theorem proper_of_mem (h : n ∈ fs.children p) : ProperName n := by
  obtain ⟨node, hmem⟩ := exists_of_mem_children h
  exact hfs.proper _ hmem n (by simp)

end Listed

namespace Tree

variable (htree : fs.Tree)
include htree

theorem isListed : fs.Listed := ⟨htree.proper, htree.listed⟩

theorem mem_children : n ∈ fs.children p ↔ (fs.node? (p ++ [n])).isSome = true :=
  htree.isListed.mem_children

theorem proper_of_node? (h : fs.node? (p ++ [n]) = some node) : ProperName n :=
  htree.isListed.proper_of_mem (htree.mem_children.mpr (by rw [h]; rfl))

theorem ne_link {t : Text} : fs.node? p ≠ some (.link t) := by
  intro h
  obtain ⟨-, hdirectory⟩ | hmem := node?_cases h
  · cases hdirectory
  · exact htree.unlinked _ hmem t rfl

/-- What is above something is a directory. -/
theorem node?_of_child (h : fs.node? (p ++ [n]) = some node) : fs.node? p = some .directory := by
  obtain ⟨hstart, -⟩ | hmem := node?_cases h
  · exact node?_of_initial ((List.prefix_append p [n]).trans hstart)
  · exact htree.inDirectory _ hmem p n rfl

theorem node?_of_below (hne : ns ≠ []) (h : fs.node? (p ++ ns) = some node) :
    fs.node? p = some .directory := by
  induction ns using List.reverseRecOn generalizing node with
  | nil => exact absurd rfl hne
  | append_singleton ns n ih =>
    rw [← List.append_assoc] at h
    have hdirectory := htree.node?_of_child h
    by_cases hns : ns = []
    · rwa [hns, List.append_nil] at hdirectory
    · exact ih hns hdirectory

theorem proper_of_below (h : fs.node? (p ++ ns) = some node) : ∀ n ∈ ns, ProperName n := by
  induction ns using List.reverseRecOn generalizing node with
  | nil => exact List.forall_mem_nil _
  | append_singleton ns n ih =>
    rw [← List.append_assoc] at h
    exact List.forall_mem_append.mpr ⟨ih (htree.node?_of_child h),
      List.forall_mem_singleton.mpr (htree.proper_of_node? h)⟩

end Tree

def go (fs : FileSystem) : Place → List Text → Except PathError (Place × Node) :=
  walkWith fs true fun _ _ => .error .tooManyLinks

theorem go_dotdot : fs.go here (dotdot :: steps) = fs.go here.dropLast steps := rfl

def ShortName (n : Text) : Prop := (Encoding.encode n).length ≤ nameLimit

instance (n : Text) : Decidable (ShortName n) := inferInstanceAs (Decidable (_ ≤ _))

theorem walkWith_name {jump : Place → List Text → Except PathError (Place × Node)}
    (hdot : c ≠ dot) (hdotdot : c ≠ dotdot) : walkWith fs follow jump here (c :: steps) =
      if nameLimit < (Encoding.encode c).length then .error .tooLong
      else match fs.node? (here ++ [c]) with
        | none => .error .absent
        | some .directory => walkWith fs follow jump (here ++ [c]) steps
        | some (.file b) =>
          if steps.isEmpty then .ok (here ++ [c], .file b) else .error .notDirectory
        | some (.link t) =>
          if steps.isEmpty && !follow then .ok (here ++ [c], .link t)
          else if pathLimit < (Encoding.encode t).length then .error .tooLong
          else jump (startOf here t) (pathSteps t ++ steps) := by
  rw [walkWith, if_neg (by simpa using hdot)]
  exact if_neg (by simpa using hdotdot)

/-- A step to a name: into a directory, or to a file as the last one. -/
theorem go_name (hdot : c ≠ dot) (hdotdot : c ≠ dotdot) {r : Place × Node}
    (h : fs.go here (c :: steps) = .ok r) : ShortName c ∧
      (fs.node? (here ++ [c]) = some .directory ∧ fs.go (here ++ [c]) steps = .ok r ∨
        ∃ b, fs.node? (here ++ [c]) = some (.file b) ∧ steps = [] ∧
          r = (here ++ [c], .file b)) := by
  rw [go, walkWith_name hdot hdotdot] at h
  split at h
  · cases h
  next hshort =>
    refine ⟨Nat.le_of_not_lt hshort, ?_⟩
    split at h
    · cases h
    next hnode => exact .inl ⟨hnode, h⟩
    next b hnode =>
      split at h
      next hempty =>
        cases h
        exact .inr ⟨b, hnode, List.isEmpty_iff.mp hempty, rfl⟩
      · cases h
    · simp only [Bool.not_true, Bool.and_false, Bool.false_eq_true, if_false] at h
      split at h <;> cases h

theorem go_last (hdot : c ≠ dot) (hdotdot : c ≠ dotdot) (hshort : ShortName c)
    (hlink : ∀ t, fs.node? (here ++ [c]) ≠ some (.link t)) : fs.go here [c] =
      match fs.node? (here ++ [c]) with
      | none => .error .absent
      | some node => .ok (here ++ [c], node) := by
  rw [go, walkWith_name hdot hdotdot, if_neg (Nat.not_lt.mpr hshort)]
  cases hnode : fs.node? (here ++ [c]) with
  | none => rfl
  | some node =>
    cases node with
    | directory => rfl
    | file b => rfl
    | link t => exact absurd hnode (hlink t)

/-- Steps behind those that lead to a directory. -/
theorem go_append (h : fs.go here xs = .ok (q, .directory)) :
    fs.go here (xs ++ ys) = fs.go q ys := by
  induction xs generalizing here with
  | nil =>
    cases h
    rfl
  | cons c xs ih =>
    by_cases hdot : c = dot
    · subst hdot
      exact ih h
    by_cases hdotdot : c = dotdot
    · subst hdotdot
      exact ih h
    obtain ⟨hshort, ⟨hnode, hgo⟩ | ⟨b, -, -, hr⟩⟩ := go_name hdot hdotdot h
    · rw [List.cons_append, go, walkWith_name hdot hdotdot, if_neg (Nat.not_lt.mpr hshort), hnode]
      exact ih hgo
    · cases hr

/-- What steps lead to, those in front lead to a directory from which the others go on. -/
theorem go_of_append {r : Place × Node} (hys : ys ≠ []) (h : fs.go here (xs ++ ys) = .ok r) :
    ∃ q, fs.go here xs = .ok (q, .directory) ∧ fs.go q ys = .ok r := by
  induction xs generalizing here with
  | nil => exact ⟨here, rfl, h⟩
  | cons c xs ih =>
    by_cases hdot : c = dot
    · subst hdot
      exact ih h
    by_cases hdotdot : c = dotdot
    · subst hdotdot
      exact ih h
    obtain ⟨hshort, ⟨hnode, hgo⟩ | ⟨b, -, hnil, -⟩⟩ := go_name hdot hdotdot h
    · obtain ⟨q, hq, hr⟩ := ih hgo
      refine ⟨q, ?_, hr⟩
      rw [go, walkWith_name hdot hdotdot, if_neg (Nat.not_lt.mpr hshort), hnode]
      exact hq
    · exact absurd (List.append_eq_nil_iff.mp hnil).2 hys

/-- Single dots can be left out of a way. -/
theorem go_filter {r : Place × Node} (h : fs.go here steps = .ok r) :
    fs.go here (steps.filter (· != dot)) = .ok r := by
  induction steps generalizing here with
  | nil => exact h
  | cons c steps ih =>
    by_cases hdot : c = dot
    · subst hdot
      exact ih h
    rw [List.filter_cons_of_pos (by simpa using hdot)]
    by_cases hdotdot : c = dotdot
    · subst hdotdot
      rw [go_dotdot] at h
      exact ih h
    obtain ⟨hshort, ⟨hnode, hgo⟩ | ⟨b, hnode, rfl, rfl⟩⟩ := go_name hdot hdotdot h
    · rw [go, walkWith_name hdot hdotdot, if_neg (Nat.not_lt.mpr hshort), hnode]
      exact ih hgo
    · exact h

namespace Tree

variable (htree : fs.Tree)
include htree

theorem walkWith_eq (jump : Place → List Text → Except PathError (Place × Node)) :
    walkWith fs follow jump here steps = fs.go here steps := by
  induction steps generalizing here with
  | nil => rfl
  | cons c steps ih =>
    by_cases hdot : c = dot
    · subst hdot
      exact ih
    by_cases hdotdot : c = dotdot
    · subst hdotdot
      exact @ih here.dropLast
    rw [go, walkWith_name hdot hdotdot, walkWith_name hdot hdotdot]
    cases hnode : fs.node? (here ++ [c]) with
    | none => rfl
    | some node =>
      cases node with
      | directory => exact if_congr Iff.rfl rfl ih
      | file b => rfl
      | link t => exact absurd hnode htree.ne_link

theorem walk_eq (limit : Nat) : fs.walk follow limit here steps = fs.go here steps := by
  cases limit <;> exact htree.walkWith_eq _

/-- Steps from a directory lead to what is at the place they end in. -/
theorem node?_of_go {r : Place × Node} (hhere : fs.node? here = some .directory)
    (h : fs.go here steps = .ok r) : fs.node? r.1 = some r.2 := by
  induction steps generalizing here with
  | nil =>
    cases h
    exact hhere
  | cons c steps ih =>
    by_cases hdot : c = dot
    · subst hdot
      exact ih hhere h
    by_cases hdotdot : c = dotdot
    · subst hdotdot
      rw [go_dotdot] at h
      refine ih ?_ h
      obtain rfl | ⟨above, n, rfl⟩ := List.eq_nil_or_concat' here
      · exact hhere
      · rw [List.dropLast_concat]
        exact htree.node?_of_child hhere
    obtain ⟨-, ⟨hnode, hgo⟩ | ⟨b, hnode, -, rfl⟩⟩ := go_name hdot hdotdot h
    · exact ih hnode hgo
    · exact hnode

/-- A name behind a directory leads to what is there. -/
theorem go_child (h : fs.go here xs = .ok (q, .directory)) (hnode : fs.node? (q ++ [n]) = some node)
    (hshort : ShortName n) : fs.go here (xs ++ [n]) = .ok (q ++ [n], node) := by
  have hn := htree.proper_of_node? hnode
  rw [go_append h, go_last hn.ne_dot hn.ne_dotdot hshort fun t => htree.ne_link, hnode]

end Tree

end FileSystem

end Terraload
