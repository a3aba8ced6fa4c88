import Mathlib.Data.List.Flatten
import Terraload.Proofs.Encoding
import Terraload.Proofs.FileSystem.Tree
/-!
Going down from a directory in a tree: what a path leads to that goes on from that of the directory,
which names the directory is searched for, and all directories below it that are not hidden.
-/
namespace Terraload

open Terraload.Path

variable {fs : FileSystem} {directories follow : Bool} {d e n p path : Text} {here q : Place}
  {ns steps : List Text} {node : Node}

namespace Path

theorem parts_name (hn : slash ∉ n) : parts n = [n] := by
  have hone := parts_ofParts (List.forall_mem_singleton.mpr hn) (List.cons_ne_nil n [])
  simpa [ofParts, Text.join] using hone

def stem (d : Text) : Text := if d.getLast? == some slash then d else d ++ [slash]

theorem join_eq_stem (hd : d ≠ []) (hn : Relative n) : join d n = stem d ++ n := by
  have hjoin : join d n = if d.isEmpty || d.getLast? == some slash then d ++ n
      else d ++ slash :: n := by
    unfold join
    split
    next => exact absurd rfl hn
    next => rfl
  rw [hjoin, stem, List.isEmpty_eq_false_iff.mpr hd, Bool.false_or]
  split
  · rfl
  · simp

theorem stem_of_last (h : d.getLast? ≠ some slash) : stem d = d ++ [slash] := by
  rw [stem, if_neg (by simpa using h)]

theorem join_slash (hd : d ≠ []) (hlast : d.getLast? ≠ some slash) (r : Text) :
    join (d ++ [slash]) r = join d r := by
  unfold join
  split
  · rfl
  · simp [hd, hlast]

theorem join_of_last (hd : d ≠ []) (hlast : d.getLast? ≠ some slash) (hn : Relative n) :
    join d n = d ++ slash :: n := by
  rw [join_eq_stem hd hn, stem_of_last hlast, List.append_assoc]
  rfl

/-- A stem is a path with one slash behind it, or is the path itself. -/
theorem stem_cases (d : Text) : (∃ e, d = e ++ [slash] ∧ stem d = e ++ [slash]) ∨
    d.getLast? ≠ some slash ∧ stem d = d ++ [slash] := by
  by_cases h : d.getLast? = some slash
  · left
    have hd := List.dropLast_append_getLast? slash h
    exact ⟨d.dropLast, hd.symm, by rw [stem, if_pos (by simpa using h), hd]⟩
  · exact .inr ⟨h, stem_of_last h⟩

theorem exists_stem (d : Text) : ∃ e, stem d = e ++ [slash] := by
  obtain ⟨e, -, hstem⟩ | ⟨-, hstem⟩ := stem_cases d
  · exact ⟨e, hstem⟩
  · exact ⟨d, hstem⟩

theorem parts_behind (e : Text) (hn : slash ∉ n) : parts (e ++ [slash] ++ n) = parts e ++ [n] := by
  rw [List.append_assoc, List.singleton_append, ← parts_name hn]
  exact Text.splitOn_append slash e n

/-- A path that goes on by a name goes on so in one way. -/
theorem stem_inj {d' m : Text} (hn : slash ∉ n) (hm : slash ∉ m)
    (h : stem d ++ n = stem d' ++ m) : stem d = stem d' ∧ n = m := by
  obtain ⟨e, he⟩ := exists_stem d
  obtain ⟨e', he'⟩ := exists_stem d'
  have hparts := congrArg parts h
  rw [he, he', parts_behind e hn, parts_behind e' hm] at hparts
  obtain ⟨hfront, hlast⟩ := List.append_inj' hparts rfl
  rw [he, he', ← ofParts_parts e, hfront, ofParts_parts]
  exact ⟨rfl, (List.cons.inj hlast).1⟩

theorem getLast?_append_of_name (d : Text) (hne : n ≠ []) (hn : slash ∉ n) :
    (d ++ n).getLast? ≠ some slash := by
  intro h
  rw [List.getLast?_append_of_ne_nil _ hne] at h
  exact hn (List.mem_of_getLast? h)

theorem ofParts_cons (hne : ns ≠ []) : ofParts (n :: ns) = n ++ slash :: ofParts ns := by
  obtain ⟨m, ns, rfl⟩ := List.exists_cons_of_ne_nil hne
  simp [ofParts, Text.join]

theorem ofParts_append {ms : List Text} (hms : ms ≠ []) (hns : ns ≠ []) :
    ofParts (ms ++ ns) = ofParts ms ++ slash :: ofParts ns := by
  induction ms with
  | nil => exact absurd rfl hms
  | cons m ms ih =>
    by_cases hnil : ms = []
    · rw [hnil, List.singleton_append, ofParts_cons hns]
      rfl
    · rw [List.cons_append, ofParts_cons (List.append_ne_nil_of_left_ne_nil hnil ns), ih hnil,
        ofParts_cons hnil, List.append_assoc, List.cons_append]

theorem relative_row (hs : ∀ n ∈ ns, n ≠ [] ∧ slash ∉ n) : Relative (ofParts ns) :=
  relative_ofParts (fun n hn => (hs n hn).2) fun h => (hs [] h).1 rfl

/-- A row of names behind a directory goes on from its first name. -/
theorem join_ofParts_cons (hd : d ≠ []) (hne : ns ≠ [])
    (hs : ∀ m ∈ n :: ns, m ≠ [] ∧ slash ∉ m) :
    join d (ofParts (n :: ns)) = join (join d n) (ofParts ns) := by
  obtain ⟨hn, hns⟩ := List.forall_mem_cons.mp hs
  have hstem : join d n = stem d ++ n := join_eq_stem hd (relative_of_notMem hn.2)
  have hjoin : join d n ≠ [] := by
    rw [hstem]
    exact List.append_ne_nil_of_right_ne_nil _ hn.1
  rw [join_eq_stem hd (relative_row hs), join_eq_stem hjoin (relative_row hns), hstem,
    stem_of_last (getLast?_append_of_name _ hn.1 hn.2), ofParts_cons hne]
  simp

theorem row_ne_nil (hne : ns ≠ []) (hs : ∀ n ∈ ns, n ≠ [] ∧ slash ∉ n) : ofParts ns ≠ [] :=
  ofParts_ne_nil (fun n hn => (hs n hn).2) (fun hnil => (hs [] hnil).1 rfl) hne

theorem getLast?_row (hne : ns ≠ []) (hs : ∀ n ∈ ns, n ≠ [] ∧ slash ∉ n) :
    (ofParts ns).getLast? ≠ some slash := by
  obtain rfl | ⟨init, n, rfl⟩ := List.eq_nil_or_concat' ns
  · exact absurd rfl hne
  obtain ⟨hn, hslash⟩ := hs n (by simp)
  by_cases hinit : init = []
  · rw [hinit]
    exact fun h => hslash (List.mem_of_getLast? h)
  · rw [ofParts_append hinit (List.cons_ne_nil _ _), ← List.singleton_append, ← List.append_assoc]
    exact getLast?_append_of_name _ hn hslash

/-- A row of names with a part at its end. -/
theorem split_row (hne : ns ≠ []) (hs : ∀ n ∈ ns, n ≠ [] ∧ slash ∉ n) (hp : slash ∉ p) :
    split (ofParts ns ++ slash :: p) = (ofParts ns, p) :=
  split_name (row_ne_nil hne hs) (getLast?_row hne hs) hp

/-- A row of names with one more at its end is the path of this name below the row. -/
theorem join_row (hne : ns ≠ []) (hs : ∀ m ∈ ns, m ≠ [] ∧ slash ∉ m) (hn : slash ∉ n) :
    join (ofParts ns) n = ofParts (ns ++ [n]) := by
  rw [join_of_last (row_ne_nil hne hs) (getLast?_row hne hs) (relative_of_notMem hn),
    ofParts_append hne (List.cons_ne_nil _ _)]
  rfl

end Path

namespace FileSystem

def stepsOf (p : Text) : List Text := (parts p).filter fun c => !c.isEmpty

theorem pathSteps_cases (p : Text) :
    pathSteps p = stepsOf p ∨ pathSteps p = stepsOf p ++ [dot] := by
  simp only [pathSteps]
  split
  · exact .inr rfl
  · exact .inl rfl

theorem stepsOf_slash (e : Text) : stepsOf (e ++ [slash]) = stepsOf e := by
  have hparts : parts (e ++ [slash]) = parts e ++ [[]] := Text.splitOn_append slash e []
  rw [stepsOf, hparts, List.filter_append]
  exact List.append_nil _

theorem stepsOf_stem (d : Text) : stepsOf (stem d) = stepsOf d := by
  obtain ⟨e, rfl, hstem⟩ | ⟨-, hstem⟩ := stem_cases d
  · rw [hstem]
  · rw [hstem, stepsOf_slash]

theorem stepsOf_join (hd : d ≠ []) (hne : n ≠ []) (hn : slash ∉ n) :
    stepsOf (join d n) = stepsOf d ++ [n] := by
  obtain ⟨e, hstem⟩ := exists_stem d
  have hparts : parts (join d n) = parts e ++ [n] := by
    rw [join_eq_stem hd (relative_of_notMem hn), hstem, parts_behind e hn]
  have hsteps : stepsOf d = stepsOf e := by rw [← stepsOf_stem, hstem, stepsOf_slash]
  rw [hsteps, stepsOf, hparts, List.filter_append, List.filter_cons_of_pos (by simpa using hne)]
  rfl

theorem pathSteps_join (hd : d ≠ []) (hne : n ≠ []) (hn : slash ∉ n) :
    pathSteps (join d n) = stepsOf d ++ [n] := by
  have hlast : (join d n).getLast? ≠ some slash := by
    rw [join_eq_stem hd (relative_of_notMem hn)]
    exact getLast?_append_of_name _ hne hn
  rw [← stepsOf_join hd hne hn]
  simp only [pathSteps]
  rw [if_neg (by simpa using hlast)]
  rfl

theorem pathSteps_name (hne : n ≠ []) (hn : slash ∉ n) : pathSteps n = [n] := by
  have hlast : n.getLast? ≠ some slash := fun h => hn (List.mem_of_getLast? h)
  simp [pathSteps, parts_name hn, hne, hlast]

theorem startOf_of_relative (hp : Relative p) : startOf here p = here := by
  unfold startOf
  split
  · exact absurd rfl hp
  · rfl

theorem startOf_append (hd : d ≠ []) (r : Text) : startOf here (d ++ r) = startOf here d := by
  obtain ⟨a, d, rfl⟩ := List.exists_cons_of_ne_nil hd
  unfold startOf
  split <;> split <;> simp_all

theorem startOf_join (hd : d ≠ []) (hn : Relative n) :
    startOf here (join d n) = startOf here d := by
  rw [join_eq_stem hd hn]
  obtain ⟨e, rfl, hstem⟩ | ⟨-, hstem⟩ := stem_cases d
  · rw [hstem, startOf_append hd]
  · rw [hstem, List.append_assoc, startOf_append hd]

def Short (p : Text) : Prop := (Encoding.encode p).length ≤ pathLimit

instance (p : Text) : Decidable (Short p) := inferInstanceAs (Decidable (_ ≤ _))

theorem Short.of_sublist (h : Short p) (hsub : e.Sublist p) : Short e :=
  Nat.le_trans (hsub.flatMap _).length_le h

theorem sublist_join (hd : d ≠ []) (hn : Relative n) : d.Sublist (join d n) := by
  rw [join_eq_stem hd hn]
  obtain ⟨e, rfl, hstem⟩ | ⟨-, hstem⟩ := stem_cases d
  · rw [hstem]
    exact List.sublist_append_left _ _
  · rw [hstem, List.append_assoc]
    exact List.sublist_append_left _ _

/-- A name is not too long for a path of its own. -/
theorem ShortName.join_dot (h : ShortName n) (hn : Relative n) : Short (join dot n) := by
  rw [join_eq_stem (by decide) hn, Short, Encoding.encode, List.flatMap_append, List.length_append]
  have hdot : (List.flatMap Encoding.encodeCodePoint (stem dot)).length = 2 := by decide
  have hname : (List.flatMap Encoding.encodeCodePoint n).length ≤ 255 := h
  rw [hdot, pathLimit]
  omega

theorem find_eq (hd : d ≠ []) (hnul : nulMark ∉ d) (hshort : Short d) :
    fs.find follow d = fs.walk follow linkLimit (startOf fs.current d) (pathSteps d) := by
  rw [find, if_neg (by simpa [nulMark] using hnul), if_neg (by simpa using hd),
    if_neg (Nat.not_lt.mpr hshort)]

theorem locate_iff {r : Place × Node} (hd : d ≠ []) (hnul : nulMark ∉ d) (hshort : Short d) :
    fs.locate follow d = .ok r ↔
      fs.walk follow linkLimit (startOf fs.current d) (pathSteps d) = .ok r := by
  rw [← find_eq_ok, find_eq hd hnul hshort]

theorem short_of_locate {r : Place × Node} (h : fs.locate follow d = .ok r) :
    d ≠ [] ∧ nulMark ∉ d ∧ Short d := by
  refine ⟨?_, notMem_of_locate h, ?_⟩
  · rintro rfl
    cases h
  · by_contra hlong
    rw [← find_eq_ok] at h
    unfold find at h
    split at h
    · cases h
    split at h
    · cases h
    rw [if_pos (Nat.lt_of_not_le hlong)] at h
    cases h

structure Leads (fs : FileSystem) (d : Text) (q : Place) : Prop where
  ne_nil : d ≠ []
  noNul : nulMark ∉ d
  go_eq : fs.go (startOf fs.current d) (stepsOf d) = .ok (q, .directory)

theorem leads_slash (hd : d ≠ []) : Leads fs (d ++ [slash]) q ↔ Leads fs d q := by
  have hnul : nulMark ∉ d ++ [slash] ↔ nulMark ∉ d := by
    rw [List.mem_append, not_or]
    exact and_iff_left (by decide)
  constructor
  · rintro ⟨-, hmem, hgo⟩
    rw [startOf_append hd, stepsOf_slash] at hgo
    exact ⟨hd, hnul.mp hmem, hgo⟩
  · rintro ⟨-, hmem, hgo⟩
    refine ⟨List.append_ne_nil_of_left_ne_nil hd _, hnul.mpr hmem, ?_⟩
    rwa [startOf_append hd, stepsOf_slash]

namespace Tree

variable (htree : fs.Tree)
include htree

theorem node?_of_walk {r : Place × Node} (h : fs.go (startOf fs.current d) steps = .ok r) :
    fs.node? r.1 = some r.2 := htree.node?_of_go (node?_of_initial (startOf_initial _ _)) h

theorem node?_of_leads (h : Leads fs d q) : fs.node? q = some .directory :=
  htree.node?_of_walk h.go_eq

theorem node?_of_locate {r : Place × Node} (h : fs.locate follow d = .ok r) :
    fs.node? r.1 = some r.2 := by
  obtain ⟨hd, hnul, hshort⟩ := short_of_locate h
  rw [locate_iff hd hnul hshort, htree.walk_eq] at h
  exact htree.node?_of_walk h

theorem leads_of_locate (h : fs.locate follow d = .ok (q, .directory)) : Leads fs d q := by
  obtain ⟨hd, hnul, hshort⟩ := short_of_locate h
  rw [locate_iff hd hnul hshort, htree.walk_eq] at h
  refine ⟨hd, hnul, ?_⟩
  obtain hsteps | hsteps := pathSteps_cases d
  · rwa [hsteps] at h
  · rw [hsteps] at h
    obtain ⟨r, hr, hdot⟩ := go_of_append (List.cons_ne_nil _ _) h
    cases hdot
    exact hr

theorem locate_of_leads (h : Leads fs d q) (hshort : Short d) :
    fs.locate follow d = .ok (q, .directory) := by
  rw [locate_iff h.ne_nil h.noNul hshort, htree.walk_eq]
  obtain hsteps | hsteps := pathSteps_cases d
  · rw [hsteps, h.go_eq]
  · rw [hsteps, go_append h.go_eq]
    rfl

/-- A path that goes on by a name leads to what has this name. -/
theorem locate_child (h : Leads fs d q) (hnode : fs.node? (q ++ [n]) = some node)
    (hname : ShortName n) (hshort : Short (join d n)) :
    fs.locate follow (join d n) = .ok (q ++ [n], node) := by
  have hn := htree.proper_of_node? hnode
  have hrel := relative_of_notMem hn.noSlash
  have hjoin : join d n ≠ [] := by
    rw [join_eq_stem h.ne_nil hrel]
    exact List.append_ne_nil_of_right_ne_nil _ hn.ne_nil
  rw [locate_iff hjoin (notMem_join (by decide) h.noNul hn.noNul) hshort, htree.walk_eq,
    pathSteps_join h.ne_nil hn.ne_nil hn.noSlash, startOf_join h.ne_nil hrel]
  exact htree.go_child h.go_eq hnode hname

/-- A path that goes on by a part goes on from a directory. -/
theorem exists_parent (hd : d ≠ []) (hne : n ≠ []) (hn : slash ∉ n) {r : Place × Node}
    (h : fs.locate follow (join d n) = .ok r) :
    ∃ q, Leads fs d q ∧ Short d ∧ fs.go q [n] = .ok r := by
  have hrel := relative_of_notMem hn
  obtain ⟨hjoin, hnul, hshort⟩ := short_of_locate h
  rw [locate_iff hjoin hnul hshort, htree.walk_eq, pathSteps_join hd hne hn,
    startOf_join hd hrel] at h
  obtain ⟨q, hq, hlast⟩ := go_of_append (List.cons_ne_nil _ _) h
  have hsub := sublist_join hd hrel
  exact ⟨q, ⟨hd, fun hmem => hnul (hsub.mem hmem), hq⟩, hshort.of_sublist hsub, hlast⟩

theorem descend (h : Leads fs d q) (hnode : fs.node? (q ++ [n]) = some .directory)
    (hname : ShortName n) : Leads fs (join d n) (q ++ [n]) := by
  have hn := htree.proper_of_node? hnode
  have hrel := relative_of_notMem hn.noSlash
  refine ⟨?_, notMem_join (by decide) h.noNul hn.noNul, ?_⟩
  · rw [join_eq_stem h.ne_nil hrel]
    exact List.append_ne_nil_of_right_ne_nil _ hn.ne_nil
  · rw [startOf_join h.ne_nil hrel, stepsOf_join h.ne_nil hn.ne_nil hn.noSlash]
    exact htree.go_child h.go_eq hnode hname

end Tree

end FileSystem

end Terraload
