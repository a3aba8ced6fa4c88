import Terraload.Proofs.FileSystem.Descent
/-!
What is found in a directory of a tree: the names that a wildcard accepts, and all directories below
it that are reached by names which are not hidden.
-/
namespace Terraload

open Terraload.Path

variable {fs : FileSystem} {directories : Bool} {d n part path : Text} {q : Place}
  {ns : List Text} {node : Node}

namespace FileSystem

/-- A path that leads to a directory and that everything below the directory has a path behind which
is not too long, by names that are not too long. -/
structure Spans (fs : FileSystem) (d : Text) (q : Place) : Prop extends Leads fs d q where
  fits : ∀ ns, ns ≠ [] → (fs.node? (q ++ ns)).isSome = true →
    Short (join d (ofParts ns)) ∧ ∀ n ∈ ns, ShortName n

/-- Everything below the directory that a path leads to has a path behind this one which is not too
long. -/
def FitsBelow (fs : FileSystem) (d : Text) : Prop :=
  ∀ q ns, fs.locate true d = .ok (q, .directory) → ns ≠ [] → (fs.node? (q ++ ns)).isSome = true →
    Short (join d (ofParts ns)) ∧ ∀ n ∈ ns, ShortName n

theorem Spans.fits_name (h : Spans fs d q) (hnode : fs.node? (q ++ [n]) = some node) :
    Short (join d n) ∧ ShortName n := by
  obtain ⟨hshort, hnames⟩ := h.fits [n] (List.cons_ne_nil _ _) (by rw [hnode]; rfl)
  exact ⟨hshort, List.forall_mem_singleton.mp hnames⟩

theorem Spans.slash (h : Spans fs d q) (hlast : d.getLast? ≠ some slash) :
    Spans fs (d ++ [Path.slash]) q where
  toLeads := (leads_slash h.ne_nil).mpr h.toLeads
  fits := by
    simp only [join_slash h.ne_nil hlast]
    exact h.fits

namespace Tree

variable (htree : fs.Tree)
include htree

theorem spans_below (h : Spans fs d q) (hnode : fs.node? (q ++ [n]) = some .directory) :
    Spans fs (join d n) (q ++ [n]) where
  toLeads := htree.descend h.toLeads hnode (h.fits_name hnode).2
  fits := fun ns hne hthere => by
    obtain ⟨node, hbelow⟩ := Option.isSome_iff_exists.mp hthere
    rw [List.append_assoc] at hbelow hthere
    have hproper : ∀ m ∈ n :: ns, m ≠ [] ∧ Path.slash ∉ m := fun m hm =>
      have hm := htree.proper_of_below hbelow m hm
      ⟨hm.ne_nil, hm.noSlash⟩
    obtain ⟨hshort, hnames⟩ := h.fits (n :: ns) (List.cons_ne_nil _ _) hthere
    rw [join_ofParts_cons h.ne_nil hne hproper] at hshort
    exact ⟨hshort, fun m hm => hnames m (List.mem_cons_of_mem _ hm)⟩

/-- Where all places of a file system, behind the path of a directory, are not too long. -/
theorem fitsBelow (hlocate : fs.locate true d = .ok (q, node))
    (h : ∀ e ∈ fs.nodes, Short (join d (ofParts (e.1.drop q.length))) ∧ ∀ n ∈ e.1, ShortName n) :
    fs.FitsBelow d := by
  intro r ns hr hne hthere
  rw [hlocate] at hr
  cases hr
  obtain rfl | ⟨init, n, rfl⟩ := List.eq_nil_or_concat' ns
  · exact absurd rfl hne
  rw [← List.append_assoc] at hthere
  obtain ⟨found, hmem⟩ := exists_of_mem_children (htree.mem_children.mpr hthere)
  obtain ⟨hshort, hnames⟩ := h _ hmem
  rw [List.append_assoc, List.drop_left] at hshort
  exact ⟨hshort, fun m hm => hnames m (by rw [List.append_assoc]; exact List.mem_append_right _ hm)⟩

end Tree

end FileSystem

open FileSystem

namespace Glob

theorem names_of_notDirectory (hd : d ≠ []) (h : fs.isDirectory d = false) :
    names fs directories d = [] := by
  have hlist : ∃ e, fs.list d = .error e := by
    unfold FileSystem.list
    split
    next q hlocate =>
      rw [isDirectory_eq_true.mpr ⟨q, hlocate⟩] at h
      cases h
    · exact ⟨_, rfl⟩
    · exact ⟨_, rfl⟩
  obtain ⟨e, he⟩ := hlist
  simp only [names, List.isEmpty_eq_false_iff.mpr hd, Bool.false_eq_true, if_false, he]

/-- A directory is searched for the names in it. -/
theorem names_of_locate (directories : Bool) (h : fs.locate true d = .ok (q, .directory)) :
    names fs directories d = if directories then
      (fs.children q).filter fun n => fs.isDirectory (join d n) else fs.children q := by
  have hlist : fs.list d = .ok (fs.children q) := by rw [FileSystem.list, h]
  simp only [names, List.isEmpty_eq_false_iff.mpr (short_of_locate h).1, Bool.false_eq_true,
    if_false, hlist]

variable (htree : fs.Tree)
include htree

theorem mem_names_of_leads (h : Leads fs d q) (hshort : Short d) :
    n ∈ names fs directories d ↔
      n ∈ fs.children q ∧ (directories = true → fs.isDirectory (join d n) = true) := by
  rw [names_of_locate directories (htree.locate_of_leads h hshort)]
  cases directories with
  | false => simp
  | true => simp [List.mem_filter]

theorem mem_names_of_spans (h : Spans fs d q) : n ∈ names fs directories d ↔
    ∃ node, fs.node? (q ++ [n]) = some node ∧ (directories = true → node = .directory) := by
  by_cases hshort : Short d
  · rw [mem_names_of_leads htree h.toLeads hshort, htree.mem_children, Option.isSome_iff_exists]
    constructor
    · rintro ⟨⟨node, hnode⟩, hdirectory⟩
      refine ⟨node, hnode, fun hd => ?_⟩
      obtain ⟨hfits, hname⟩ := h.fits_name hnode
      obtain ⟨r, hr⟩ := isDirectory_eq_true.mp (hdirectory hd)
      rw [htree.locate_child h.toLeads hnode hname hfits] at hr
      cases hr
      rfl
    · rintro ⟨node, hnode, hdirectory⟩
      refine ⟨⟨node, hnode⟩, fun hd => ?_⟩
      obtain rfl := hdirectory hd
      obtain ⟨hfits, hname⟩ := h.fits_name hnode
      exact isDirectory_eq_true.mpr ⟨_, htree.locate_child h.toLeads hnode hname hfits⟩
  -- A directory with a path that is too long cannot be listed, and has nothing in it.
  · have hdirectory : fs.isDirectory d = false := by
      refine Bool.eq_false_iff.mpr fun htrue => ?_
      obtain ⟨r, hr⟩ := isDirectory_eq_true.mp htrue
      exact hshort (short_of_locate hr).2.2
    rw [names_of_notDirectory h.ne_nil hdirectory]
    constructor
    · exact fun hmem => absurd hmem List.not_mem_nil
    · rintro ⟨node, hnode, -⟩
      have hrel := relative_of_notMem (htree.proper_of_node? hnode).noSlash
      exact absurd ((h.fits_name hnode).1.of_sublist (sublist_join h.ne_nil hrel)) hshort

theorem mem_matching_of_spans (h : Spans fs d q) : n ∈ matching fs false d part ↔
    (fs.node? (q ++ [n])).isSome = true ∧ (hidden part = true ∨ hidden n = false) ∧
      Wildcard.accepts part n = true := by
  rw [matching, List.mem_filter, mem_names_of_spans htree h]
  simp [Option.isSome_iff_exists]

omit htree in
theorem allBelow_of_notDirectory (hd : d ≠ []) (h : fs.isDirectory d = false) (limit : Nat) :
    allBelow fs directories limit d = [] := by
  cases limit with
  | zero => rfl
  | succ limit => rw [allBelow, visible, names_of_notDirectory hd h, List.filter_nil, List.flatMap_nil]

omit htree in
theorem below_name (hd : d ≠ []) (hn : n ≠ []) : below d n = join d n := by
  rw [below, if_neg (by simpa using hd), if_neg (by simpa using hn)]

omit htree in
theorem below_ofParts (hne : ns ≠ []) (hs : ∀ m ∈ n :: ns, m ≠ [] ∧ slash ∉ m) :
    below n (ofParts ns) = ofParts (n :: ns) := by
  obtain ⟨hn, hns⟩ := List.forall_mem_cons.mp hs
  rw [below_name hn.1 (row_ne_nil hne hns), join_eq_stem hn.1 (relative_row hns),
    stem_of_last (fun h => hn.2 (List.mem_of_getLast? h)), ofParts_cons hne, List.append_assoc]
  rfl

structure Reaches (fs : FileSystem) (q : Place) (ns : List Text) (node : Node) : Prop where
  visible : ∀ n ∈ ns, hidden n = false
  node_eq : fs.node? (q ++ ns) = some node

omit htree in
theorem reaches_cons : Reaches fs q (n :: ns) node ↔
    hidden n = false ∧ Reaches fs (q ++ [n]) ns node := by
  constructor
  · rintro ⟨hvisible, hnode⟩
    obtain ⟨hn, hns⟩ := List.forall_mem_cons.mp hvisible
    exact ⟨hn, hns, by simpa using hnode⟩
  · rintro ⟨hn, hns, hnode⟩
    exact ⟨List.forall_mem_cons.mpr ⟨hn, hns⟩, by simpa using hnode⟩

theorem Reaches.names (h : Reaches fs q ns node) : ∀ n ∈ ns, n ≠ [] ∧ slash ∉ n := fun n hn =>
  have hproper := htree.proper_of_below h.node_eq n hn
  ⟨hproper.ne_nil, hproper.noSlash⟩

theorem Reaches.start (h : Reaches fs q ns .directory) :
    fs.node? q = some .directory := by
  by_cases hns : ns = []
  · simpa [hns] using h.node_eq
  · exact htree.node?_of_below hns h.node_eq

/-- What is found below a directory by way of one name in it: this name, and what is found below
that. -/
theorem mem_row {limit : Nat} {inner : List Text} (hn : hidden n = false)
    (hnode : fs.node? (q ++ [n]) = some .directory)
    (hinner : ∀ x, x ∈ inner ↔ ∃ ns, ns ≠ [] ∧ ns.length ≤ limit ∧
      Reaches fs (q ++ [n]) ns .directory ∧ x = ofParts ns) (x : Text) :
    x ∈ n :: inner.map (below n) ↔ ∃ ns, ns.length ≤ limit ∧
      Reaches fs q (n :: ns) .directory ∧ x = ofParts (n :: ns) := by
  rw [List.mem_cons, List.mem_map]
  constructor
  · rintro (rfl | ⟨a, ha, rfl⟩)
    · have hone := reaches_cons.mpr ⟨hn, List.forall_mem_nil _, by simpa using hnode⟩
      exact ⟨[], Nat.zero_le _, hone, rfl⟩
    · obtain ⟨ns, hne, hlength, hns, rfl⟩ := (hinner a).mp ha
      have hreaches := reaches_cons.mpr ⟨hn, hns⟩
      exact ⟨ns, hlength, hreaches, below_ofParts hne (Reaches.names htree hreaches)⟩
  · rintro ⟨ns, hlength, hreaches, rfl⟩
    by_cases hne : ns = []
    · exact .inl (by rw [hne]; rfl)
    · have hns := (hinner (ofParts ns)).mpr ⟨ns, hne, hlength, (reaches_cons.mp hreaches).2, rfl⟩
      exact .inr ⟨_, hns, below_ofParts hne (Reaches.names htree hreaches)⟩

/-- All directories below one that are not hidden are found, down to some depth. -/
theorem mem_allBelow {limit : Nat} (h : Spans fs d q) (x : Text) :
    x ∈ allBelow fs true limit d ↔
      ∃ ns, ns ≠ [] ∧ ns.length ≤ limit ∧ Reaches fs q ns .directory ∧ x = ofParts ns := by
  induction limit generalizing d q x with
  | zero =>
    refine ⟨fun hmem => absurd hmem List.not_mem_nil, ?_⟩
    rintro ⟨ns, hne, hlength, -⟩
    exact absurd (List.length_eq_zero_iff.mp (Nat.le_zero.mp hlength)) hne
  | succ limit ih =>
    have hrow {n : Text} (hname : n ∈ names fs true d) (hhidden : hidden n = false) :
        x ∈ n :: (allBelow fs true limit (below d n)).map (below n) ↔
          ∃ ns, ns.length ≤ limit ∧ Reaches fs q (n :: ns) .directory ∧ x = ofParts (n :: ns) := by
      obtain ⟨node, hnode, hdirectory⟩ := (mem_names_of_spans htree h).mp hname
      obtain rfl := hdirectory rfl
      refine mem_row htree hhidden hnode ?_ x
      rw [below_name h.ne_nil (htree.proper_of_node? hnode).ne_nil]
      exact ih (htree.spans_below h hnode)
    rw [allBelow, List.mem_flatMap]
    constructor
    · rintro ⟨n, hn, hx⟩
      obtain ⟨hname, hhidden⟩ := List.mem_filter.mp hn
      obtain ⟨ns, hlength, hreaches, rfl⟩ := (hrow hname (by simpa using hhidden)).mp hx
      exact ⟨n :: ns, List.cons_ne_nil _ _, Nat.succ_le_succ hlength, hreaches, rfl⟩
    · rintro ⟨ns, hne, hlength, hreaches, rfl⟩
      obtain ⟨n, ns, rfl⟩ := List.exists_cons_of_ne_nil hne
      obtain ⟨hn, hns⟩ := reaches_cons.mp hreaches
      have hname : n ∈ names fs true d :=
        (mem_names_of_spans htree h).mpr ⟨_, Reaches.start htree hns, fun _ => rfl⟩
      exact ⟨n, List.mem_filter.mpr ⟨hname, by simp [hn]⟩,
        (hrow hname hn).mpr ⟨ns, Nat.le_of_succ_le_succ hlength, hreaches, rfl⟩⟩

omit htree in
theorem length_le_ofParts (hs : ∀ n ∈ ns, n ≠ [] ∧ slash ∉ n) :
    ns.length ≤ (ofParts ns).length := by
  induction ns with
  | nil => exact Nat.zero_le _
  | cons n ns ih =>
    obtain ⟨hn, hns⟩ := List.forall_mem_cons.mp hs
    have hone := List.length_pos_iff.mpr hn.1
    by_cases hnil : ns = []
    · rw [hnil]
      exact hone
    · have hlater := ih hns
      rw [ofParts_cons hnil, List.length_append, List.length_cons, List.length_cons]
      omega

theorem length_le_depthLimit (h : Spans fs d q) (hne : ns ≠ [])
    (hreaches : Reaches fs q ns node) : ns.length ≤ depthLimit := by
  have hs := Reaches.names htree hreaches
  have hshort := (h.fits ns hne (by rw [hreaches.node_eq]; rfl)).1
  have hrow : (ofParts ns).length ≤ (join d (ofParts ns)).length := by
    rw [join_eq_stem h.ne_nil (relative_row hs), List.length_append]
    exact Nat.le_add_left _ _
  exact (length_le_ofParts hs).trans (hrow.trans ((Encoding.length_le_encode _).trans hshort))

/-- Two stars find a directory and all those below it that are not hidden. -/
theorem mem_inDirectory_deepMark (h : Spans fs d q) (hshort : Short d) (x : Text) :
    x ∈ inDirectory fs true true d deepMark ↔ ∃ ns, Reaches fs q ns .directory ∧ x = ofParts ns := by
  have hdirectory : fs.isDirectory d = true :=
    isDirectory_eq_true.mpr ⟨q, htree.locate_of_leads h.toLeads hshort⟩
  rw [inDirectory, if_neg (by decide), if_pos (by decide), hdirectory, Bool.or_true, if_pos rfl,
    List.mem_append, List.mem_singleton, mem_allBelow htree h]
  constructor
  · rintro (rfl | ⟨ns, -, -, hreaches, rfl⟩)
    · have hq := htree.node?_of_leads h.toLeads
      exact ⟨[], ⟨List.forall_mem_nil _, by rwa [List.append_nil]⟩, rfl⟩
    · exact ⟨ns, hreaches, rfl⟩
  · rintro ⟨ns, hreaches, rfl⟩
    by_cases hne : ns = []
    · exact .inl (by rw [hne]; rfl)
    · exact .inr ⟨ns, hne, length_le_depthLimit htree h hne hreaches, hreaches, rfl⟩

end Glob

end Terraload
