import Terraload.Proofs.FileSystem.Discovery
import Terraload.Proofs.FileSystem.Links
import Terraload.Proofs.Wildcard
/-!
A search for an escaped path. It finds this path and nothing else, whatever characters of a pattern
its names are made of, and whether there are links on the way or not.
-/
namespace Terraload

open Terraload.Path FileSystem

variable {fs : FileSystem} {deep directories : Bool} {d n p part path : Text} {q : Place}
  {ns : List Text}

namespace Glob

/-- Only the first code point makes a name a hidden one. -/
theorem hidden_cons (a : CodePoint) (s t : Text) : hidden (a :: s) = hidden (a :: t) := by
  unfold hidden
  split <;> split <;> simp_all

theorem hidden_escape (n : Text) : hidden (Wildcard.escape n) = hidden n := by
  cases n with
  | nil => rfl
  | cons a n =>
    rw [Wildcard.escape_cons, Wildcard.escapeOne]
    cases hspecial : Wildcard.special a with
    | true => obtain rfl | rfl | rfl := Wildcard.special_iff.mp hspecial <;> rfl
    | false =>
      rw [if_neg Bool.false_ne_true]
      exact hidden_cons a _ n

theorem head?_escape (p : Text) : (Wildcard.escape p).head? ≠ some (.char '*') := by
  cases p with
  | nil => exact nofun
  | cons a p =>
    rw [Wildcard.escape_cons, Wildcard.escapeOne]
    cases hspecial : Wildcard.special a with
    | true => exact fun h => absurd (Option.some.inj h) (by decide)
    | false =>
      intro h
      obtain rfl : a = .char '*' := Option.some.inj h
      cases hspecial

theorem escape_ne_deepMark (n : Text) : Wildcard.escape n ≠ deepMark := fun h =>
  head?_escape n (by rw [h]; rfl)

theorem slash_notMem_escape (hn : slash ∉ n) : slash ∉ Wildcard.escape n :=
  Wildcard.notMem_escape (by decide) (by decide) hn

/-- A row of names is escaped name by name. -/
theorem escape_ofParts (ns : List Text) :
    Wildcard.escape (ofParts ns) = ofParts (ns.map Wildcard.escape) := by
  induction ns with
  | nil => rfl
  | cons n ns ih =>
    by_cases hne : ns = []
    · rw [hne]
      rfl
    · rw [ofParts_cons hne, Wildcard.escape_append, Wildcard.escape_cons, ih, List.map_cons,
        ofParts_cons (by simpa using hne)]
      rfl

theorem row_escape (hs : ∀ n ∈ ns, n ≠ [] ∧ slash ∉ n) :
    ∀ n ∈ ns.map Wildcard.escape, n ≠ [] ∧ slash ∉ n :=
  List.forall_mem_map.mpr fun n hn =>
    ⟨Wildcard.escape_ne_nil (hs n hn).1, slash_notMem_escape (hs n hn).2⟩

theorem split_escape (hne : ns ≠ []) (hs : ∀ n ∈ ns, n ≠ [] ∧ slash ∉ n) (hpart : slash ∉ part) :
    split (Wildcard.escape (ofParts ns) ++ slash :: part) =
      (Wildcard.escape (ofParts ns), part) := by
  rw [escape_ofParts]
  exact split_row (by simpa using hne) (row_escape hs) hpart

end Glob

namespace FileSystem

theorem isDirectory_dot_join (hne : n ≠ []) (hn : slash ∉ n) (hdot : n ≠ dot)
    (hdotdot : n ≠ dotdot) (h : fs.isDirectory n = true) : fs.isDirectory (join dot n) = true := by
  obtain ⟨r, hr⟩ := isDirectory_eq_true.mp h
  have hrel := relative_of_notMem hn
  obtain ⟨-, hnul, -, hwalked⟩ := locate_eq_ok.mp hr
  rw [pathSteps_name hne hn, startOf_of_relative hrel] at hwalked
  refine isDirectory_eq_true.mpr ⟨r, locate_eq_ok.mpr ⟨?_, ?_, ?_, ?_⟩⟩
  · rw [join_eq_stem (by decide) hrel]
    exact List.append_ne_nil_of_right_ne_nil _ hne
  · exact notMem_join (by decide) (by decide) hnul
  · exact (hwalked.name hdot hdotdot).1.join_dot hrel
  · rw [pathSteps_join (by decide) hne hn, startOf_join (by decide) hrel]
    exact .stay hwalked

theorem linkExists_of_isDirectory (h : fs.isDirectory p = true) : fs.linkExists? p = true := by
  obtain ⟨r, hr⟩ := isDirectory_eq_true.mp h
  obtain ⟨hp, hnul, hshort, hwalked⟩ := locate_eq_ok.mp hr
  obtain ⟨r', hunfollowed⟩ := hwalked.exists_unfollowed
  rw [linkExists?, locate_eq_ok.mpr ⟨hp, hnul, hshort, hunfollowed⟩]
  rfl

theorem isDirectory_parent (hd : d ≠ []) (hne : n ≠ []) (hn : slash ∉ n)
    (h : fs.isDirectory (join d n) = true) : fs.isDirectory d = true := by
  obtain ⟨r, hr⟩ := isDirectory_eq_true.mp h
  obtain ⟨q, -, hq, -⟩ := exists_parent hd hne hn hr
  exact isDirectory_eq_true.mpr ⟨q, hq⟩

theorem Listed.named (hfs : fs.Listed) : fs.Named := fun e he n hn => (hfs.proper e he n hn).noSlash

end FileSystem

namespace Glob

variable (hfs : fs.Listed)
include hfs

/-- A directory is among the names of the one it stands in. -/
theorem mem_names_of_isDirectory (hne : n ≠ []) (hn : slash ∉ n) (hdot : n ≠ dot)
    (hdotdot : n ≠ dotdot) (h : fs.isDirectory (below d n) = true) : n ∈ names fs true d := by
  -- The directory that is listed: the one it starts from where the text is empty.
  obtain ⟨e, hnames, he, hdirectory⟩ : ∃ e, names fs true d = names fs true e ∧ e ≠ [] ∧
      fs.isDirectory (join e n) = true := by
    by_cases hd : d = []
    · subst hd
      exact ⟨dot, rfl, by decide, isDirectory_dot_join hne hn hdot hdotdot h⟩
    · rw [below_name hd hne] at h
      exact ⟨d, rfl, hd, h⟩
  obtain ⟨r, hr⟩ := isDirectory_eq_true.mp hdirectory
  obtain ⟨q, left, hq, -, hlast⟩ := exists_parent he hne hn hr
  rw [hnames, names_of_locate true hq, if_pos rfl]
  exact List.mem_filter.mpr
    ⟨hfs.mem_children.mpr (hlast.name hdot hdotdot).2, hdirectory⟩

omit hfs in
/-- An escaped name finds this name and no other. -/
theorem eq_of_inDirectory_escape {directories : Bool} {m : Text}
    (hm : m ∈ inDirectory fs deep directories d (Wildcard.escape n)) : m = n := by
  rw [inDirectory, Wildcard.isMagic_escape] at hm
  cases hmagic : Wildcard.isMagic n with
  | false =>
    rw [hmagic, Wildcard.escape_of_plain hmagic, if_pos (by decide)] at hm
    exact eq_of_mem_single hm
  | true =>
    rw [hmagic, if_neg (by decide), if_neg (by simp [escape_ne_deepMark])] at hm
    have haccepts := (Bool.and_eq_true_iff.mp (List.mem_filter.mp hm).2).2
    exact (Wildcard.accepts_escape n m).mp haccepts

/-- An escaped name finds this name, if a directory has it. -/
theorem mem_inDirectory_escape (deep : Bool) (hne : n ≠ []) (hn : slash ∉ n)
    (h : fs.isDirectory (below d n) = true) :
    n ∈ inDirectory fs deep true d (Wildcard.escape n) := by
  rw [inDirectory, Wildcard.isMagic_escape]
  cases hmagic : Wildcard.isMagic n with
  | false =>
    rw [Wildcard.escape_of_plain hmagic, if_pos (by decide), single, if_neg (by simpa using hne),
      if_pos (linkExists_of_isDirectory h)]
    exact List.mem_singleton_self n
  | true =>
    have hdot : n ≠ dot := by
      rintro rfl
      cases hmagic
    have hdotdot : n ≠ dotdot := by
      rintro rfl
      cases hmagic
    rw [if_neg (by decide), if_neg (by simp [escape_ne_deepMark])]
    refine List.mem_filter.mpr ⟨mem_names_of_isDirectory hfs hne hn hdot hdotdot h, ?_⟩
    rw [hidden_escape, Bool.or_not_self, Bool.true_and]
    exact (Wildcard.accepts_escape n n).mpr rfl

structure FindsAlone (fs : FileSystem) (p : Text) (found : List Text) : Prop where
  alone : ∀ x ∈ found, x = p
  there : fs.isDirectory p = true → p ∈ found

omit hfs in
/-- The directories to look in where an escaped path stands in front of the last part. -/
theorem parents_escape {limit : Nat} (hsplit : (split path).1 = Wildcard.escape p)
    (hsearch : Wildcard.isMagic (Wildcard.escape p) = true →
      FindsAlone fs p (search fs deep limit true (Wildcard.escape p))) :
    FindsAlone fs p (parents fs deep limit path) := by
  cases hmagic : Wildcard.isMagic (Wildcard.escape p) with
  | true =>
    rw [parents_of_magic fs deep limit (by rwa [hsplit]), hsplit]
    exact hsearch hmagic
  | false =>
    rw [parents_of_plain fs deep limit (by rwa [hsplit]), hsplit,
      Wildcard.escape_of_plain (by rwa [← Wildcard.isMagic_escape])]
    exact ⟨fun x hx => List.mem_singleton.mp hx, fun _ => List.mem_singleton_self p⟩

/-- One name more behind an escaped path. -/
theorem search_escape_append (hne : ns ≠ []) (hs : ∀ n ∈ ns, n ≠ [] ∧ slash ∉ n)
    (hname : n ≠ []) (hslash : slash ∉ n)
    (hmagic : Wildcard.isMagic (Wildcard.escape (ofParts (ns ++ [n]))) = true) {limit : Nat}
    (hsearch : Wildcard.isMagic (Wildcard.escape (ofParts ns)) = true →
      FindsAlone fs (ofParts ns) (search fs deep limit true (Wildcard.escape (ofParts ns)))) :
    FindsAlone fs (ofParts (ns ++ [n]))
      (search fs deep (limit + 1) true (Wildcard.escape (ofParts (ns ++ [n])))) := by
  have hd := row_ne_nil hne hs
  have hsplit : split (Wildcard.escape (ofParts (ns ++ [n]))) =
      (Wildcard.escape (ofParts ns), Wildcard.escape n) := by
    rw [ofParts_append hne (List.cons_ne_nil _ _), Wildcard.escape_append]
    exact split_escape hne hs (slash_notMem_escape hslash)
  have hparents : FindsAlone fs (ofParts ns)
      (parents fs deep limit (Wildcard.escape (ofParts (ns ++ [n])))) :=
    parents_escape (congrArg Prod.fst hsplit) hsearch
  have hmem (x : Text) :
      x ∈ search fs deep (limit + 1) true (Wildcard.escape (ofParts (ns ++ [n]))) ↔ _ :=
    mem_search_rows hmagic (by rw [hsplit]; exact Wildcard.escape_ne_nil hd)
  rw [hsplit] at hmem
  have hjoin := join_row hne hs hslash
  constructor
  case alone =>
    intro x hx
    obtain ⟨d, hd, m, hm, rfl⟩ := (hmem x).mp hx
    rw [hparents.alone d hd, eq_of_inDirectory_escape hm, hjoin]
  case there =>
    intro h
    rw [← hjoin] at h
    refine (hmem _).mpr ⟨ofParts ns, hparents.there (isDirectory_parent hd hname hslash h), n, ?_,
      hjoin.symm⟩
    exact mem_inDirectory_escape hfs deep hname hslash (by rwa [below_name hd hname])

/-- An escaped path finds this path alone, if it leads to a directory. -/
theorem search_escape (hne : ns ≠ []) (hs : ∀ n ∈ ns, n ≠ [] ∧ slash ∉ n)
    (hmagic : Wildcard.isMagic (Wildcard.escape (ofParts ns)) = true) {limit : Nat}
    (hlimit : ns.length ≤ limit) :
    FindsAlone fs (ofParts ns) (search fs deep limit true (Wildcard.escape (ofParts ns))) := by
  induction ns using List.reverseRecOn generalizing limit with
  | nil => exact absurd rfl hne
  | append_singleton init n ih =>
    obtain ⟨hinits, hn⟩ := List.forall_mem_append.mp hs
    obtain ⟨hname, hslash⟩ := List.forall_mem_singleton.mp hn
    rw [List.length_append, List.length_singleton] at hlimit
    obtain ⟨limit, rfl⟩ : ∃ m, limit = m + 1 := ⟨limit - 1, by omega⟩
    by_cases hinit : init = []
    -- A pattern of one part is looked for where relative paths start.
    · subst hinit
      have hone : ofParts ([] ++ [n]) = n := rfl
      rw [hone] at hmagic ⊢
      have hsplit := split_of_notMem (slash_notMem_escape hslash)
      rw [search_part limit hmagic (by rw [hsplit])]
      exact ⟨fun x hx => eq_of_inDirectory_escape hx, fun h =>
        mem_inDirectory_escape (d := []) hfs deep hname hslash h⟩
    · exact search_escape_append hfs hinit hinits hname hslash hmagic fun hmagic =>
        ih hinit hinits hmagic (Nat.le_of_succ_le_succ hlimit)

end Glob

end Terraload
