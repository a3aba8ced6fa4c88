import Terraload.Proofs.FileSystem.Tree
/-!
File systems without links stay such where directories are made and files are written.
-/
namespace Terraload

open Terraload.Path

namespace FileSystem

variable {fs : FileSystem} {p q here : Place} {n path : Text} {steps : List Text} {node : Node}

theorem lookup_insert (nodes : List (Place × Node)) (p q : Place) (node : Node) :
    (nodes.filter (fun e => e.1 != p) ++ [(p, node)]).lookup q =
      if q = p then some node else nodes.lookup q := by
  induction nodes with
  | nil =>
    by_cases h : q = p
    · simp [h]
    · simp [h, List.lookup_cons, beq_eq_false_iff_ne.mpr h]
  | cons e nodes ih =>
    obtain ⟨place, found⟩ := e
    by_cases hplace : place = p
    · subst hplace
      rw [List.filter_cons_of_neg (by simp), ih]
      by_cases h : q = place
      · rw [if_pos h, if_pos h]
      · rw [if_neg h, if_neg h, List.lookup_cons, beq_eq_false_iff_ne.mpr h]
    · rw [List.filter_cons_of_pos (by simpa using hplace), List.cons_append, List.lookup_cons, ih,
        List.lookup_cons]
      by_cases h : q = place
      · subst h
        simp [hplace]
      · rw [beq_eq_false_iff_ne.mpr h]

theorem node?_insert (fs : FileSystem) (p q : Place) (node : Node) :
    (fs.insert p node).node? q =
      if q <+: fs.current then some .directory else if q = p then some node else fs.node? q := by
  have hcurrent : (fs.insert p node).current = fs.current := rfl
  have hnodes : (fs.insert p node).nodes = fs.nodes.filter (fun e => e.1 != p) ++ [(p, node)] := rfl
  rw [node?, node?, hcurrent, hnodes, lookup_insert]
  by_cases h : q <+: fs.current
  · rw [if_pos h, if_pos (List.isPrefixOf_iff_prefix.mpr h)]
  · rw [if_neg h, if_neg (List.isPrefixOf_iff_prefix.not.mpr h),
      if_neg (List.isPrefixOf_iff_prefix.not.mpr h)]

theorem mem_nodes_insert {e : Place × Node} (h : e ∈ (fs.insert p node).nodes) :
    e = (p, node) ∨ e ∈ fs.nodes := by
  obtain h | h := List.mem_append.mp h
  · exact .inr (List.mem_filter.mp h).1
  · exact .inl (List.mem_singleton.mp h)

/-- A place that is taken stays so. -/
theorem exists_mem_insert (p : Place) (node : Node) {e : Place × Node} (h : e ∈ fs.nodes) :
    ∃ e' ∈ (fs.insert p node).nodes, e'.1 = e.1 := by
  by_cases hp : e.1 = p
  · exact ⟨(p, node), List.mem_append_right _ (List.mem_singleton_self _), hp.symm⟩
  · exact ⟨e, List.mem_append_left _ (List.mem_filter.mpr ⟨h, by simpa using hp⟩), rfl⟩

theorem mem_nodes_empty {e : Place × Node} :
    e ∈ (empty p).nodes ↔ ∃ i < p.length, e = (p.take (i + 1), .directory) := by
  simp [empty, eq_comm]

theorem tree_empty (h : ∀ n ∈ p, ProperName n) : (empty p).Tree where
  proper := by
    intro e he n hn
    obtain ⟨i, -, rfl⟩ := mem_nodes_empty.mp he
    exact h n (List.mem_of_mem_take hn)
  inDirectory := by
    intro e he q n heq
    obtain ⟨i, -, rfl⟩ := mem_nodes_empty.mp he
    refine node?_of_initial ((List.prefix_append q [n]).trans ?_)
    rw [← heq]
    exact List.take_prefix _ _
  unlinked := by
    intro e he t
    obtain ⟨i, -, rfl⟩ := mem_nodes_empty.mp he
    exact Node.noConfusion
  listed := by
    intro q n hstart
    have hlength := hstart.length_le
    rw [List.length_append, List.length_singleton] at hlength
    refine mem_children_of_mem (mem_nodes_empty.mpr ⟨q.length, hlength, rfl⟩) ?_
    have htake := List.prefix_iff_eq_take.mp hstart
    rw [htake, List.length_append, List.length_singleton]
    rfl

namespace Tree

theorem insert (htree : fs.Tree) (hhere : fs.node? here = some .directory) (hn : ProperName n)
    (hlink : ∀ t, node ≠ .link t)
    (hold : fs.node? (here ++ [n]) = some .directory → node = .directory) :
    (fs.insert (here ++ [n]) node).Tree where
  proper := by
    intro e he m hm
    obtain rfl | he := mem_nodes_insert he
    · obtain hm | hm := List.mem_append.mp hm
      · exact htree.proper_of_below (p := []) hhere m hm
      · rwa [List.mem_singleton.mp hm]
    · exact htree.proper e he m hm
  inDirectory := by
    intro e he q m heq
    have hq : fs.node? q = some .directory := by
      obtain rfl | he := mem_nodes_insert he
      · rwa [← (List.append_inj' heq rfl).1]
      · exact htree.inDirectory e he q m heq
    rw [node?_insert]
    split
    · rfl
    split
    next hplace => rw [hold (by rwa [← hplace])]
    · exact hq
  unlinked := by
    intro e he t
    obtain rfl | he := mem_nodes_insert he
    · exact hlink t
    · exact htree.unlinked e he t
  listed := by
    intro q m hstart
    obtain ⟨found, hmem⟩ := exists_of_mem_children (htree.listed q m hstart)
    obtain ⟨e, he, heq⟩ := exists_mem_insert (here ++ [n]) node hmem
    exact mem_children_of_mem he heq

/-- A way is made name by name; what it ends in is a directory. -/
theorem makeWay (htree : fs.Tree) (steps : List Text) (hhere : fs.node? here = some .directory)
    (hsteps : ∀ n ∈ steps, n ≠ [] ∧ slash ∉ n ∧ nulMark ∉ n ∧ n ≠ dot) :
    (fs.makeWay here steps).1.Tree ∧
      ∀ q, (fs.makeWay here steps).2 = some q →
        (fs.makeWay here steps).1.node? q = some .directory := by
  induction steps generalizing fs here with
  | nil => exact ⟨htree, fun q hq => by cases hq; exact hhere⟩
  | cons n steps ih =>
    obtain ⟨⟨hne, hslash, hnul, hdot⟩, hsteps⟩ := List.forall_mem_cons.mp hsteps
    rw [FileSystem.makeWay]
    split
    next q hwalk =>
      rw [htree.walk_eq] at hwalk
      exact ih htree (htree.node?_of_go hhere hwalk) hsteps
    next hwalk =>
      have hdotdot : n ≠ dotdot := by
        rintro rfl
        rw [htree.walk_eq] at hwalk
        cases hwalk
      split
      · exact ⟨htree, nofun⟩
      next hfree =>
        have hinsert : (fs.insert (here ++ [n]) .directory).Tree :=
          htree.insert hhere ⟨hne, hslash, hnul, hdot, hdotdot⟩ nofun fun _ => rfl
        refine ih hinsert ?_ hsteps
        rw [node?_insert]
        simp
    · exact ⟨htree, nofun⟩

theorem writeAt (htree : fs.Tree) (hhere : fs.node? here = some .directory) (hn : ProperName n)
    (content : Bytes) (limit : Nat) : (fs.writeAt content limit here n).Tree := by
  cases limit with
  | zero => exact htree
  | succ limit =>
    rw [FileSystem.writeAt]
    split
    · exact htree
    next t hlink => exact absurd hlink htree.ne_link
    next hother _ =>
      exact htree.insert hhere hn nofun fun hdirectory => absurd hdirectory hother

theorem names_made (hnul : nulMark ∉ path) :
    ∀ n ∈ names path, n ≠ [] ∧ slash ∉ n ∧ nulMark ∉ n ∧ n ≠ dot := by
  intro n hn
  obtain ⟨hpart, hne, hdot⟩ := mem_names.mp hn
  have hpath : nulMark ∉ n := fun hmem => hnul (by
    rw [← ofParts_parts path]
    exact Text.mem_join_of_mem hpart hmem)
  exact ⟨hne, slash_notMem_of_mem_parts hpart, hpath, hdot⟩

theorem makeDirectory (htree : fs.Tree) (hnul : nulMark ∉ path) : (fs.makeDirectory path).Tree :=
  (htree.makeWay _ (node?_of_initial (startOf_initial fs.current path)) (names_made hnul)).1

/-- A file is written in a tree, with the directories on the way to it. -/
theorem write (htree : fs.Tree) (hnul : nulMark ∉ path)
    (hlast : (names path).getLast? ≠ some dotdot) (content : Bytes) :
    (fs.write path content).Tree := by
  have hnames := names_made hnul
  have hway := htree.makeWay (names path).dropLast
    (node?_of_initial (startOf_initial fs.current path))
    fun n hn => hnames n ((List.dropLast_sublist _).mem hn)
  rw [FileSystem.write, parent]
  cases hname : (names path).getLast? with
  | none => exact htree
  | some n =>
    obtain ⟨hne, hslash, hnul, hdot⟩ := hnames n (List.mem_of_getLast? hname)
    have hdotdot : n ≠ dotdot := fun heq => hlast (by rw [hname, heq])
    dsimp only
    generalize fs.makeWay (startOf fs.current path) (names path).dropLast = made at hway ⊢
    obtain ⟨fs', _ | here⟩ := made
    · exact hway.1
    · exact hway.1.writeAt (hway.2 here rfl) ⟨hne, hslash, hnul, hdot, hdotdot⟩ content linkLimit

end Tree

end FileSystem

end Terraload
