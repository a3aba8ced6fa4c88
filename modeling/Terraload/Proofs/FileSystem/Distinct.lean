import Mathlib.Data.List.Nodup
import Terraload.Proofs.FileSystem.Spelling
/-!
No path is found twice, neither in a directory nor by the pattern for the files below one: of two
names in a directory each has its own, and an escaped path is found once at most.
-/
namespace Terraload

open Terraload.Path FileSystem Glob

variable {fs : FileSystem} {deep directories : Bool} {d n p x y extension : Text}
  {found ns : List Text} {limit : Nat}

namespace FileSystem

theorem nodup_children (fs : FileSystem) (p : Place) : (fs.children p).Nodup := by
  have hplaces : fs.nodes.Pairwise fun a b => a.1 ≠ b.1 := List.pairwise_map.mp fs.unique
  refine List.Pairwise.filterMap _ (fun a b hne n hn m hm heq => hne ?_) hplaces
  cases ha : a.1.getLast? with
  | none => simp [ha] at hn
  | some x =>
    cases hb : b.1.getLast? with
    | none => simp [hb] at hm
    | some y =>
      simp only [ha, Option.ite_none_right_eq_some, Option.some.injEq, beq_iff_eq] at hn
      simp only [hb, Option.ite_none_right_eq_some, Option.some.injEq, beq_iff_eq] at hm
      rw [← List.dropLast_append_getLast? x ha, ← List.dropLast_append_getLast? y hb, hn.1, hn.2,
        hm.1, hm.2, heq]

end FileSystem

namespace Glob

/-- Rows put together, where nothing stands in two of them. -/
theorem nodup_rows {f : Text → List Text} (hns : ns.Nodup) (hrow : ∀ n ∈ ns, (f n).Nodup)
    (hapart : ∀ n ∈ ns, ∀ m ∈ ns, ∀ p ∈ f n, p ∈ f m → n = m) : (ns.flatMap f).Nodup := by
  refine List.nodup_flatMap.mpr ⟨hrow, hns.pairwise_of_forall_ne fun n hn m hm hne => ?_⟩
  exact fun p hp hp' => hne (hapart n hn m hm p hp hp')

theorem sublist_names (fs : FileSystem) (directories : Bool) (d : Text) :
    ∃ q, (names fs directories d).Sublist (fs.children q) := by
  simp only [names]
  split
  · exact ⟨[], List.nil_sublist _⟩
  next all hlist =>
    obtain ⟨q, rfl⟩ : ∃ q, all = fs.children q := by
      unfold FileSystem.list at hlist
      split at hlist
      next q _ =>
        cases hlist
        exact ⟨q, rfl⟩
      · cases hlist
      · cases hlist
    refine ⟨q, ?_⟩
    split
    · exact List.filter_sublist
    · exact .refl _

theorem nodup_names (fs : FileSystem) (directories : Bool) (d : Text) :
    (names fs directories d).Nodup := by
  obtain ⟨q, hsub⟩ := sublist_names fs directories d
  exact (nodup_children fs q).sublist hsub

theorem proper_of_names (hfs : fs.Listed) (hn : n ∈ names fs directories d) : ProperName n := by
  obtain ⟨q, hsub⟩ := sublist_names fs directories d
  exact hfs.proper_of_mem (hsub.mem hn)

/-- An escaped name is found once at most. -/
theorem length_inDirectory_escape :
    (inDirectory fs deep directories d (Wildcard.escape n)).length ≤ 1 := by
  have honly : inDirectory fs deep directories d (Wildcard.escape n) =
      List.replicate (inDirectory fs deep directories d (Wildcard.escape n)).length n :=
    List.eq_replicate_of_mem fun m hm => eq_of_inDirectory_escape hm
  have hnodup : (inDirectory fs deep directories d (Wildcard.escape n)).Nodup := by
    unfold inDirectory
    split
    · unfold single
      split <;> split <;> simp
    · rw [if_neg (by simp [escape_ne_deepMark])]
      exact (nodup_names fs directories d).filter _
  rw [honly] at hnodup
  exact List.nodup_replicate.mp hnodup

/-- What is found where there is one directory to look in at most. -/
theorem search_rows_cases (directories : Bool) (hmagic : Wildcard.isMagic p = true) (hdir : (split p).1 ≠ [])
    (hone : (parents fs deep limit p).length ≤ 1) :
    search fs deep (limit + 1) directories p = [] ∨ ∃ x ∈ parents fs deep limit p,
      search fs deep (limit + 1) directories p =
        (inDirectory fs deep directories x (split p).2).map (join x) := by
  rw [search_rows limit hmagic hdir]
  match hparents : parents fs deep limit p with
  | [] => exact .inl rfl
  | [x] => exact .inr ⟨x, List.mem_singleton_self x, by simp⟩
  | _ :: _ :: _ =>
    rw [hparents] at hone
    simp at hone

/-- The directories to look in where an escaped path stands in front of the last part: one at
most. -/
theorem length_parents_escape (hsplit : (split p).1 = Wildcard.escape d)
    (hsearch : Wildcard.isMagic d = true →
      (search fs deep limit true (Wildcard.escape d)).length ≤ 1) :
    (parents fs deep limit p).length ≤ 1 := by
  cases hmagic : Wildcard.isMagic d with
  | true =>
    rw [parents_of_magic fs deep limit (by rw [hsplit, Wildcard.isMagic_escape, hmagic]), hsplit]
    exact hsearch hmagic
  | false =>
    rw [parents_of_plain fs deep limit (by rw [hsplit, Wildcard.isMagic_escape, hmagic])]
    exact Nat.le_refl 1

/-- An escaped path is found once at most. -/
theorem length_search_escape (hd : Trimmed d) (hmagic : Wildcard.isMagic d = true) :
    (search fs deep limit directories (Wildcard.escape d)).length ≤ 1 := by
  induction limit generalizing d directories with
  | zero => exact Nat.zero_le 1
  | succ limit ih =>
    have hescape : Wildcard.isMagic (Wildcard.escape d) = true := by
      rw [Wildcard.isMagic_escape, hmagic]
    -- What one directory gives, whichever it is.
    have hrow {n : Text} (hn : (split (Wildcard.escape d)).2 = Wildcard.escape n)
        (hdir : (split (Wildcard.escape d)).1 ≠ [])
        (hone : (parents fs deep limit (Wildcard.escape d)).length ≤ 1) :
        (search fs deep (limit + 1) directories (Wildcard.escape d)).length ≤ 1 := by
      obtain hnil | ⟨x, -, hfound⟩ := search_rows_cases directories hescape hdir hone
      · rw [hnil]
        exact Nat.zero_le 1
      · rw [hfound, hn, List.length_map]
        exact length_inDirectory_escape
    obtain ⟨n, hn, ⟨k, rfl⟩ | ⟨w, k, hw, rfl⟩⟩ := exists_parted d
    · have hsplit : split (Wildcard.escape (slashes k ++ n)) = (slashes k, Wildcard.escape n) := by
        rw [Wildcard.escape_append, escape_slashes]
        exact split_slashes k (slash_notMem_escape hn)
      cases k with
      | zero =>
        rw [search_part limit hescape (congrArg Prod.fst hsplit)]
        exact length_inDirectory_escape (n := n)
      | succ k =>
        refine hrow (congrArg Prod.snd hsplit) (by rw [hsplit]; exact List.cons_ne_nil _ _) ?_
        rw [parents_of_plain fs deep limit (by rw [hsplit]; exact isMagic_slashes _)]
        exact Nat.le_refl 1
    · have hsplit : split (Wildcard.escape (w ++ slashes (k + 1) ++ n)) =
          (Wildcard.escape w, Wildcard.escape n) := by
        rw [Wildcard.escape_append, Wildcard.escape_append, escape_slashes]
        exact split_trimmed hw.escape k (slash_notMem_escape hn)
      exact hrow (congrArg Prod.snd hsplit) (by rw [hsplit]; exact hw.escape.ne_nil)
        (length_parents_escape (congrArg Prod.fst hsplit) (ih hw))

structure Inside (x : Text) : Prop extends Trimmed x where
  relative : Relative x

theorem Inside.of_name (hne : n ≠ []) (hn : slash ∉ n) : Inside n where
  toTrimmed := .append_name hne hn []
  relative := relative_of_notMem hn

theorem Inside.below_eq (h : Inside x) (hn : n ≠ []) : below n x = stem n ++ x := by
  rw [below_name hn h.ne_nil, join_eq_stem hn h.relative]

theorem Inside.below (h : Inside x) (hn : Inside n) : Inside (below n x) where
  ne_nil := by
    rw [h.below_eq hn.ne_nil]
    exact List.append_ne_nil_of_right_ne_nil _ h.ne_nil
  last := by
    rw [h.below_eq hn.ne_nil, List.getLast?_append_of_ne_nil _ h.ne_nil]
    exact h.last
  relative := by
    rw [below_name hn.ne_nil h.ne_nil]
    exact relative_join hn.relative h.relative

theorem inside_of_allBelow (hfs : fs.Listed) (hx : x ∈ allBelow fs directories limit d) : Inside x :=
  allBelow_forall (P := Inside) (fun hm =>
    have hproper := proper_of_names hfs hm
    .of_name hproper.ne_nil hproper.noSlash) (fun hm hk => hk.below hm) hx

/-- What is found by way of a name starts with it. -/
theorem takeWhile_of_row (hne : n ≠ []) (hn : slash ∉ n) (hinner : ∀ x ∈ ns, Inside x)
    (hx : x ∈ n :: ns.map (below n)) : x.takeWhile (· != slash) = n := by
  have hall : ∀ c ∈ n, (c != slash) = true := fun c hc => by
    rw [bne_iff_ne]
    rintro rfl
    exact hn hc
  obtain rfl | hx := List.mem_cons.mp hx
  · exact List.takeWhile_eq_self_iff.mpr hall
  · obtain ⟨k, hk, rfl⟩ := List.mem_map.mp hx
    rw [(hinner k hk).below_eq hne, stem_of_last fun h => hn (List.mem_of_getLast? h),
      List.append_assoc, List.takeWhile_append_of_pos hall]
    simp

theorem nodup_row (hne : n ≠ []) (hns : ns.Nodup) (hinner : ∀ x ∈ ns, Inside x) :
    (n :: ns.map (below n)).Nodup := by
  refine List.nodup_cons.mpr ⟨fun hmem => ?_, ?_⟩
  · obtain ⟨x, hx, heq⟩ := List.mem_map.mp hmem
    have hlength := congrArg List.length heq
    obtain ⟨e, hstem⟩ | ⟨-, hstem⟩ := stem_cases n
    · rw [(hinner x hx).below_eq hne, hstem.2, ← hstem.1, List.length_append] at hlength
      have hpos := List.length_pos_iff.mpr (hinner x hx).ne_nil
      omega
    · rw [(hinner x hx).below_eq hne, hstem, List.length_append, List.length_append,
        List.length_singleton] at hlength
      omega
  · refine hns.map_on fun x hx y hy heq => ?_
    rw [(hinner x hx).below_eq hne, (hinner y hy).below_eq hne] at heq
    exact List.append_cancel_left heq

theorem nodup_allBelow (hfs : fs.Listed) : (allBelow fs directories limit d).Nodup := by
  induction limit generalizing d with
  | zero => exact .nil
  | succ limit ih =>
    have hproper {n : Text} (hn : n ∈ visible fs directories d) : ProperName n :=
      proper_of_names hfs (List.mem_filter.mp hn).1
    have hinside (n x : Text) (hx : x ∈ allBelow fs directories limit (below d n)) : Inside x :=
      inside_of_allBelow hfs hx
    rw [allBelow]
    refine nodup_rows ((nodup_names fs directories d).filter _)
      (fun n hn => nodup_row (hproper hn).ne_nil ih (hinside n)) ?_
    -- Each row is a name and what is below it, and starts with this name.
    intro n hn m hm x hx hx'
    rw [← takeWhile_of_row (hproper hn).ne_nil (hproper hn).noSlash (hinside n) hx,
      takeWhile_of_row (hproper hm).ne_nil (hproper hm).noSlash (hinside m) hx']

theorem split_deepPattern_cases (d : Text) :
    (split (deepPattern d)).1 ≠ [] ∧ (split (deepPattern d)).2 = deepMark := by
  obtain ⟨k, rfl⟩ | ⟨w, k, hw, rfl⟩ := exists_trimmed d
  · rw [split_deepPattern_slashes]
    exact ⟨List.cons_ne_nil _ _, rfl⟩
  · rw [split_deepPattern_trimmed hw]
    exact ⟨hw.escape.ne_nil, rfl⟩

/-- Two stars behind an escaped directory are looked for in one directory at most. -/
theorem parents_deepPattern_cases (fs : FileSystem) (limit : Nat) (d : Text) :
    (parents fs true limit (deepPattern d)).length ≤ 1 ∧
      ∀ y ∈ parents fs true limit (deepPattern d), y ≠ [] := by
  obtain ⟨k, rfl⟩ | ⟨w, k, hw, rfl⟩ := exists_trimmed d
  · have hsplit := split_deepPattern_slashes k
    rw [parents_of_plain fs true limit (by rw [hsplit]; exact isMagic_slashes _), hsplit]
    exact ⟨Nat.le_refl 1, List.forall_mem_singleton.mpr (List.cons_ne_nil _ _)⟩
  · have hfst := congrArg Prod.fst (split_deepPattern_trimmed hw k)
    refine ⟨length_parents_escape hfst (length_search_escape hw), fun y hy => ?_⟩
    have hrespelled := respelled_of_parents hw hfst
      (fun hmagic _ hx => respelled_of_search hw hmagic hx) hy
    exact hrespelled.trimmed.2.ne_nil

/-- What two stars find behind an escaped directory: this one with a slash behind it, if it is one,
and what is inside it, each once. -/
theorem search_deepPattern_cases (hfs : fs.Listed) (limit : Nat) (directories : Bool) (d : Text) :
    search fs true limit directories (deepPattern d) = [] ∨
      ∃ (y : Text) (ns : List Text),
        search fs true limit directories (deepPattern d) = ns.map (stem y ++ ·) ∧
        ns.Nodup ∧ ∀ x ∈ ns, x = [] ∨ Inside x := by
  cases limit with
  | zero => exact .inl rfl
  | succ limit =>
    obtain ⟨hdir, hmark⟩ := split_deepPattern_cases d
    obtain ⟨hone, hne⟩ := parents_deepPattern_cases fs limit d
    obtain hnil | ⟨y, hy, hfound⟩ := search_rows_cases directories
      (isMagic_deepPattern d) hdir hone
    · exact .inl hnil
    rw [hmark, inDirectory, if_neg (by decide), if_pos (by decide)] at hfound
    have hinside (x : Text) (hx : x ∈ allBelow fs directories depthLimit y) : Inside x :=
      inside_of_allBelow hfs hx
    have hnodup : (allBelow fs directories depthLimit y).Nodup := nodup_allBelow hfs
    have hall (x : Text) (hx : x ∈ (if y.isEmpty || fs.isDirectory y then [[]] else []) ++
        allBelow fs directories depthLimit y) : x = [] ∨ Inside x := by
      obtain hx | hx := List.mem_append.mp hx
      · rw [List.mem_ite_nil_right] at hx
        exact .inl (List.mem_singleton.mp hx.2)
      · exact .inr (hinside x hx)
    refine .inr ⟨y, _, hfound.trans (List.map_congr_left fun x hx => ?_), ?_, hall⟩
    · refine join_eq_stem (hne y hy) ?_
      obtain rfl | hx := hall x hx
      · simp [Relative]
      · exact hx.relative
    · split
      · exact List.nodup_cons.mpr ⟨fun hmem => (hinside [] hmem).ne_nil rfl, hnodup⟩
      · exact hnodup

/-- A directory that two stars find is told from the slash that what is in it stands behind. -/
theorem stem_behind_inj {y x x' : Text} (hx : x = [] ∨ Inside x) (hx' : x' = [] ∨ Inside x')
    (h : stem (stem y ++ x) = stem (stem y ++ x')) : x = x' := by
  have hnil : stem (stem y) = stem y := by
    obtain ⟨e, he⟩ := exists_stem y
    rw [stem, if_pos (by simp [he])]
  have hinside {x : Text} (hx : Inside x) : stem (stem y ++ x) = stem y ++ (x ++ [slash]) := by
    rw [stem_of_last, List.append_assoc]
    rw [List.getLast?_append_of_ne_nil _ hx.ne_nil]
    exact hx.last
  have hsame {x : Text} (heq : stem y ++ (x ++ [slash]) = stem y) : False := by
    have hlength := congrArg List.length heq
    simp at hlength
  obtain rfl | hx := hx <;> obtain rfl | hx' := hx'
  · rfl
  · rw [List.append_nil, hnil, hinside hx'] at h
    exact (hsame h.symm).elim
  · rw [List.append_nil, hnil, hinside hx] at h
    exact (hsame h).elim
  · rw [hinside hx, hinside hx'] at h
    exact List.append_cancel_right (List.append_cancel_left h)

/-- The names with an extension in a directory, each once and behind the slash that the directory
ends in. -/
theorem nodup_row_extension (hfs : fs.Listed) (directories : Bool) (extension : Text) (hd : d ≠ []) :
    ((inDirectory fs true directories d (extensionPart extension)).map (join d)).Nodup ∧
      ∀ p ∈ (inDirectory fs true directories d (extensionPart extension)).map (join d),
        ∃ n, slash ∉ n ∧ p = stem d ++ n := by
  rw [inDirectory_extensionPart]
  have hname (n : Text) (hn : n ∈ matching fs directories d (extensionPart extension)) : slash ∉ n :=
    matching_without hfs.named hn
  have hjoin (n : Text) (hn : n ∈ matching fs directories d (extensionPart extension)) :
      join d n = stem d ++ n := join_eq_stem hd (relative_of_notMem (hname n hn))
  refine ⟨((nodup_names fs directories d).filter _).map_on fun n hn m hm heq => ?_, fun p hp => ?_⟩
  · rw [hjoin n hn, hjoin m hm] at heq
    exact List.append_cancel_left heq
  · obtain ⟨n, hn, rfl⟩ := List.mem_map.mp hp
    exact ⟨n, hname n hn, hjoin n hn⟩

/-- The pattern for the files below a directory finds no path twice. -/
theorem nodup_search_filesPattern (hfs : fs.Listed) (hslash : slash ∉ extension) :
    (search fs true limit directories (filesPattern d extension)).Nodup := by
  cases limit with
  | zero => exact .nil
  | succ limit =>
    rw [search_rows limit (isMagic_filesPattern d extension) (filesPattern_dir_ne_nil hslash),
      split_filesPattern hslash, parents_filesPattern hslash]
    obtain hnil | ⟨y, ns, hdirs, hns, hall⟩ := search_deepPattern_cases hfs limit true d
    · rw [hnil]
      exact .nil
    obtain ⟨e, he⟩ := exists_stem y
    have hrow (x : Text) : _ ∧ _ :=
      nodup_row_extension hfs directories extension (d := stem y ++ x) (by simp [he])
    rw [hdirs]
    refine nodup_rows (hns.map_on fun x _ x' _ => List.append_cancel_left) ?_ ?_
    · exact List.forall_mem_map.mpr fun x _ => (hrow x).1
    · rintro a ha a' ha' p hp hp'
      obtain ⟨x, hx, rfl⟩ := List.mem_map.mp ha
      obtain ⟨x', hx', rfl⟩ := List.mem_map.mp ha'
      obtain ⟨n, hn, rfl⟩ := (hrow x).2 p hp
      obtain ⟨m, hm, heq⟩ := (hrow x').2 _ hp'
      rw [stem_behind_inj (hall x hx) (hall x' hx') (stem_inj hn hm heq).1]

theorem nodup_paths {found : List Text} (h : paths fs deep p = .ok found)
    (hsearch : (search fs deep (p.length + 1) false p).Nodup) : found.Nodup := by
  unfold paths at h
  split at h
  · cases h
  cases h
  rw [(List.mergeSort_perm _ _).nodup_iff]
  split
  · split
    next hfound =>
      rw [hfound] at hsearch
      exact (List.nodup_cons.mp hsearch).2
    next => exact hsearch
  · exact hsearch

end Glob

end Terraload
