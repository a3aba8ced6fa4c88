import Terraload.FileSystem.Glob
import Terraload.Proofs.Path
/-!
What the paths are made of that a pattern finds: parts of the pattern, names in the file system, and
slashes. A relative pattern finds relative paths.
-/
namespace Terraload

open Terraload.Path

variable {fs : FileSystem} {deep directories : Bool} {d n p part path : Text} {ns : List Text}
  {a : CodePoint}

theorem relative_of_notMem (h : slash ∉ p) : Relative p := by
  intro hhead
  exact h (List.mem_of_mem_head? hhead)

theorem relative_append {q : Text} (hp : Relative p) (hne : p ≠ []) : Relative (p ++ q) := by
  cases p with
  | nil => exact absurd rfl hne
  | cons a p => exact hp

theorem relative_of_initial {q : Text} (hp : Relative p) (h : q <+: p) : Relative q := by
  obtain ⟨r, rfl⟩ := h
  cases q with
  | nil => simp [Relative]
  | cons a q => exact hp

theorem relative_join (hd : Relative d) (hn : Relative n) : Relative (join d n) := by
  have hjoin : join d n = if d.isEmpty || d.getLast? == some slash then d ++ n
      else d ++ slash :: n := by
    unfold join
    split
    next => exact absurd rfl hn
    next => rfl
  by_cases hempty : d = []
  · rw [hjoin, hempty]
    exact hn
  · rw [hjoin]
    split
    · exact relative_append hd hempty
    · exact relative_append hd hempty

theorem split_snd (p : Text) : (split p).2 = (p.reverse.takeWhile (· != slash)).reverse := by
  simp only [split]
  split <;> rfl

theorem split_tail (p : Text) : slash ∉ (split p).2 := by
  rw [split_snd, List.mem_reverse]
  intro h
  have hne := List.all_eq_true.mp List.all_takeWhile _ h
  simp at hne

theorem split_suffix (p : Text) : (split p).2 <:+ p := by
  rw [split_snd, ← List.reverse_prefix, List.reverse_reverse]
  exact List.takeWhile_prefix _

theorem split_head (p : Text) : (split p).1 <+: p := by
  simp only [split]
  split
  · exact List.take_prefix _ _
  · refine List.IsPrefix.trans ?_ (List.take_prefix
      (p.length - (p.reverse.takeWhile (· != slash)).reverse.length) p)
    rw [← List.reverse_suffix, List.reverse_reverse]
    exact List.dropWhile_suffix _

theorem notMem_join {q : Text} (ha : a ≠ slash) (hp : a ∉ p) (hq : a ∉ q) : a ∉ join p q := by
  unfold join
  split
  · exact hq
  split
  · simp [hp, hq]
  · simp [ha, hp, hq]

def FileSystem.Without (a : CodePoint) (fs : FileSystem) : Prop := ∀ e ∈ fs.nodes, ∀ n ∈ e.1, a ∉ n

def FileSystem.Named (fs : FileSystem) : Prop := ∀ e ∈ fs.nodes, ∀ n ∈ e.1, slash ∉ n

theorem FileSystem.Without.children (hfs : fs.Without a) {q : Place} (hn : n ∈ fs.children q) :
    a ∉ n := by
  obtain ⟨⟨place, node⟩, he, heq⟩ := List.mem_filterMap.mp hn
  cases hlast : place.getLast? with
  | none => simp [hlast] at heq
  | some m =>
    simp only [hlast, Option.ite_none_right_eq_some, Option.some.injEq] at heq
    rw [← heq.2]
    exact hfs _ he m (List.mem_of_getLast? hlast)

theorem FileSystem.Without.list (hfs : fs.Without a) (h : fs.list p = .ok ns) (hn : n ∈ ns) :
    a ∉ n := by
  unfold FileSystem.list at h
  split at h
  · cases h
    exact hfs.children hn
  · cases h
  · cases h

namespace Glob

theorem names_without (hfs : fs.Without a) (hn : n ∈ names fs directories d) : a ∉ n := by
  simp only [names] at hn
  split at hn
  · cases hn
  next hlist =>
    refine hfs.list hlist ?_
    split at hn
    · exact (List.mem_filter.mp hn).1
    · exact hn

theorem matching_without (hfs : fs.Without a) (hn : n ∈ matching fs directories d part) : a ∉ n :=
  names_without hfs (List.mem_filter.mp hn).1

/-- What is found at any depth is made of names, one below the other. -/
theorem allBelow_forall {P : Text → Prop} (hname : ∀ {d n}, n ∈ names fs directories d → P n)
    (hbelow : ∀ {m k}, P m → P k → P (below m k)) {limit : Nat}
    (hn : n ∈ allBelow fs directories limit d) : P n := by
  induction limit generalizing d n with
  | zero => cases hn
  | succ limit ih =>
    obtain ⟨m, hm, hn⟩ := List.mem_flatMap.mp hn
    have hfirst := hname (List.mem_filter.mp hm).1
    obtain rfl | hn := List.mem_cons.mp hn
    · exact hfirst
    · obtain ⟨k, hk, rfl⟩ := List.mem_map.mp hn
      exact hbelow hfirst (ih hk)

theorem notMem_below (ha : a ≠ slash) (hd : a ∉ d) (hn : a ∉ n) : a ∉ below d n := by
  unfold below
  split
  · exact hn
  split
  · exact hd
  · exact notMem_join ha hd hn

theorem allBelow_without (hfs : fs.Without a) (ha : a ≠ slash) {limit : Nat}
    (hn : n ∈ allBelow fs directories limit d) : a ∉ n :=
  allBelow_forall (P := fun n => a ∉ n) (names_without hfs) (notMem_below ha) hn

inductive Matches (fs : FileSystem) (deep directories : Bool) (d part : Text) : Text → Prop
  | name {n : Text} (hn : n ∈ matching fs directories d part) :
      Matches fs deep directories d part n
  | itself (h : deep = true) : Matches fs deep directories d part []
  | below {limit : Nat} {n : Text} (hdeep : deep = true)
      (hn : n ∈ allBelow fs directories limit d) : Matches fs deep directories d part n

theorem Matches.without (h : Matches fs deep directories d part n) (hfs : fs.Without a)
    (ha : deep = true → a ≠ slash) : a ∉ n := by
  cases h with
  | name hn => exact matching_without hfs hn
  | itself h => exact List.not_mem_nil
  | below hdeep hn => exact allBelow_without hfs (ha hdeep) hn

theorem eq_of_mem_single (h : n ∈ single fs d part) : n = part := by
  unfold single at h
  split at h <;> split at h <;> first | exact List.mem_singleton.mp h | cases h

theorem matches_of_magic (hpart : Wildcard.isMagic part = true)
    (hn : n ∈ inDirectory fs deep directories d part) : Matches fs deep directories d part n := by
  rw [inDirectory, hpart, if_neg (by decide)] at hn
  split at hn
  next hdeep =>
    rw [Bool.and_eq_true] at hdeep
    obtain hn | hn := List.mem_append.mp hn
    · split at hn
      · rw [List.mem_singleton.mp hn]
        exact .itself hdeep.1
      · cases hn
    · exact .below hdeep.1 hn
  · exact .name hn

/-- What a part finds in a directory: the part itself, or what matches it. -/
theorem inDirectory_cases (hn : n ∈ inDirectory fs deep directories d part) :
    n = part ∨ Matches fs deep directories d part n := by
  cases hpart : Wildcard.isMagic part with
  | false =>
    rw [inDirectory, hpart] at hn
    exact .inl (eq_of_mem_single hn)
  | true => exact .inr (matches_of_magic hpart hn)

theorem search_plain (limit : Nat) (h : Wildcard.isMagic p = false) :
    search fs deep (limit + 1) directories p =
      if (if (split p).2.isEmpty then fs.isDirectory (split p).1 else fs.linkExists? p)
        then [p] else [] := by
  simp [search, h]

theorem search_part (limit : Nat) (h : Wildcard.isMagic p = true) (hdir : (split p).1 = []) :
    search fs deep (limit + 1) directories p = inDirectory fs deep directories [] p := by
  have hpart := split_snd_of_nil hdir
  unfold search
  generalize split p = parts at hdir hpart ⊢
  obtain ⟨dir, part⟩ := parts
  dsimp only at hdir hpart
  subst hdir hpart
  simp [h]

theorem search_rows (limit : Nat) (h : Wildcard.isMagic p = true) (hdir : (split p).1 ≠ []) :
    search fs deep (limit + 1) directories p = (parents fs deep limit p).flatMap fun d =>
      (inDirectory fs deep directories d (split p).2).map (join d) := by
  have hempty : (split p).1.isEmpty = false := by simpa using hdir
  simp only [search, h, hempty, parents, Bool.not_true, Bool.false_eq_true, if_false]

theorem mem_parents {limit : Nat} (hd : d ∈ parents fs deep limit p) :
    d = (split p).1 ∨ d ∈ search fs deep limit true (split p).1 := by
  simp only [parents] at hd
  split at hd
  · exact .inr hd
  · exact .inl (List.mem_singleton.mp hd)

/-- A path that is found is the pattern, or matches all of it, or goes on from a directory by the
last part of the pattern or a match of it. That directory is in the pattern or was found itself. -/
theorem search_cases {limit : Nat} (hpath : path ∈ search fs deep (limit + 1) directories p) :
    path = p ∨ Matches fs deep directories [] p path ∨
      ∃ d n, (d = (split p).1 ∨ d ∈ search fs deep limit true (split p).1) ∧
        (n = (split p).2 ∨ Matches fs deep directories d (split p).2 n) ∧ path = join d n := by
  cases hmagic : Wildcard.isMagic p with
  | false =>
    left
    rw [search_plain limit hmagic] at hpath
    split at hpath <;> split at hpath <;> first | exact List.mem_singleton.mp hpath | cases hpath
  | true =>
    by_cases hdir : (split p).1 = []
    · rw [search_part limit hmagic hdir] at hpath
      obtain rfl | hpath := inDirectory_cases hpath
      · exact .inl rfl
      · exact .inr (.inl hpath)
    · rw [search_rows limit hmagic hdir] at hpath
      obtain ⟨d, hd, hpath⟩ := List.mem_flatMap.mp hpath
      obtain ⟨n, hn, rfl⟩ := List.mem_map.mp hpath
      exact .inr (.inr ⟨d, n, mem_parents hd, inDirectory_cases hn, rfl⟩)

theorem search_relative (hfs : fs.Named) {limit : Nat} (hp : Relative p)
    (hpath : path ∈ search fs false limit directories p) : Relative path := by
  induction limit generalizing p directories path with
  | zero => cases hpath
  | succ limit ih =>
    have hhead : Relative (split p).1 := relative_of_initial hp (split_head p)
    have hmatch {d q n : Text} (hn : Matches fs false directories d q n) : slash ∉ n :=
      hn.without hfs Bool.noConfusion
    obtain rfl | hpath | ⟨d, n, hd, hn, rfl⟩ := search_cases hpath
    · exact hp
    · exact relative_of_notMem (hmatch hpath)
    · refine relative_join ?_ (relative_of_notMem ?_)
      · obtain rfl | hd := hd
        · exact hhead
        · exact ih hhead hd
      · obtain rfl | hn := hn
        · exact split_tail p
        · exact hmatch hn

theorem search_without (hfs : fs.Without a) (ha : a ≠ slash) {limit : Nat} (hp : a ∉ p)
    (hpath : path ∈ search fs deep limit directories p) : a ∉ path := by
  induction limit generalizing p directories path with
  | zero => cases hpath
  | succ limit ih =>
    have hhead : a ∉ (split p).1 := fun h => hp ((split_head p).mem h)
    obtain rfl | hpath | ⟨d, n, hd, hn, rfl⟩ := search_cases hpath
    · exact hp
    · exact hpath.without hfs fun _ => ha
    · refine notMem_join ha ?_ ?_
      · obtain rfl | hd := hd
        · exact hhead
        · exact ih hhead hd
      · obtain rfl | hn := hn
        · exact fun h => hp ((split_suffix p).mem h)
        · exact hn.without hfs fun _ => ha

theorem mem_search_of_paths {found : List Text} (h : paths fs deep p = .ok found)
    (hpath : path ∈ found) : path ∈ search fs deep (p.length + 1) false p := by
  unfold paths at h
  split at h
  · cases h
  cases h
  have hmem := List.mem_mergeSort.mp hpath
  split at hmem
  · split at hmem
    next hfound =>
      rw [hfound]
      exact List.mem_cons_of_mem _ hmem
    next => exact hmem
  · exact hmem

theorem paths_relative (hfs : fs.Named) {found : List Text} (hp : Relative p)
    (h : paths fs false p = .ok found) (hpath : path ∈ found) : Relative path :=
  search_relative hfs hp (mem_search_of_paths h hpath)

theorem paths_without (hfs : fs.Without a) (ha : a ≠ slash) {found : List Text} (hp : a ∉ p)
    (h : paths fs deep p = .ok found) (hpath : path ∈ found) : a ∉ path :=
  search_without hfs ha hp (mem_search_of_paths h hpath)

end Glob

end Terraload
