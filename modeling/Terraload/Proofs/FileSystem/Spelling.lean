import Terraload.Proofs.FileSystem.DeepSearch
import Terraload.Proofs.FileSystem.Doubled
/-!
How a search spells the directory that it starts from. It drops slashes at the end, and draws those
together that stand in front of a name with wildcards or behind one; the slashes that a path starts
with stay. What is found lies behind the directory as it is spelled then.
-/
namespace Terraload

open Terraload.Path FileSystem Glob

variable {fs : FileSystem} {deep directories : Bool} {d e m n p q r w x part extension : Text}
  {found : List Text} {limit k : Nat}

namespace Path

def slashes (k : Nat) : Text := List.replicate k slash

theorem slashes_succ (k : Nat) : slashes (k + 1) = slashes k ++ [slash] := List.replicate_succ'

structure Trimmed (p : Text) : Prop where
  ne_nil : p ≠ []
  last : p.getLast? ≠ some slash

theorem Trimmed.exists_concat (h : Trimmed w) : ∃ init c, w = init ++ [c] ∧ c ≠ slash := by
  obtain ⟨init, c, rfl⟩ := (List.eq_nil_or_concat' w).resolve_left h.ne_nil
  exact ⟨init, c, rfl, fun heq => h.last (by rw [heq, List.getLast?_concat])⟩

theorem getLast?_slashes (p : Text) (k : Nat) :
    (p ++ slashes (k + 1)).getLast? = some slash := by
  rw [slashes_succ, ← List.append_assoc, List.getLast?_concat]

theorem Trimmed.append_name (hne : n ≠ []) (hn : slash ∉ n) (p : Text) : Trimmed (p ++ n) where
  ne_nil := List.append_ne_nil_of_right_ne_nil _ hne
  last := getLast?_append_of_name p hne hn

theorem Trimmed.ne_slashes (h : Trimmed w) (j : Nat) : w ++ slashes j ≠ slashes k := by
  obtain ⟨init, c, rfl, hc⟩ := h.exists_concat
  intro heq
  have hmem : c ∈ slashes k := by
    rw [← heq]
    simp
  exact hc (List.eq_of_mem_replicate hmem)

theorem doubled_slashes (hn : slash ∉ n) (k : Nat) : doubled (slashes (k + 1) ++ n) = k := by
  induction k with
  | zero => exact apart_of_notMem hn
  | succ k ih =>
    have hcons : slashes (k + 1 + 1) ++ n = slash :: (slashes (k + 1) ++ n) := rfl
    rw [hcons, doubled, if_pos ⟨rfl, rfl⟩, ih, Nat.add_comm]

/-- A path is made of slashes alone, or has slashes at its end or none. -/
theorem exists_trimmed (p : Text) :
    (∃ k, p = slashes k) ∨ ∃ w k, Trimmed w ∧ p = w ++ slashes k := by
  induction p using List.reverseRecOn with
  | nil => exact .inl ⟨0, rfl⟩
  | append_singleton p c ih =>
    by_cases hc : c = slash
    · subst hc
      obtain ⟨k, rfl⟩ | ⟨w, k, hw, rfl⟩ := ih
      · exact .inl ⟨k + 1, (slashes_succ k).symm⟩
      · exact .inr ⟨w, k + 1, hw, by rw [slashes_succ, List.append_assoc]⟩
    · exact .inr ⟨p ++ [c], 0, ⟨by simp, by simpa using hc⟩, by simp [slashes]⟩

/-- A path in front of whose last part nothing but slashes stand, or something and then slashes. -/
theorem exists_parted (p : Text) : ∃ n, slash ∉ n ∧
    ((∃ k, p = slashes k ++ n) ∨ ∃ w k, Trimmed w ∧ p = w ++ slashes (k + 1) ++ n) := by
  obtain ⟨f, n, rfl, hf, hn⟩ := exists_front p
  refine ⟨n, hn, ?_⟩
  obtain ⟨k, rfl⟩ | ⟨w, k, hw, rfl⟩ := exists_trimmed f
  · exact .inl ⟨k, rfl⟩
  cases k with
  | zero =>
    obtain ⟨init, c, rfl, hc⟩ := hw.exists_concat
    exact absurd (hf c (by simp [slashes])) hc
  | succ k => exact .inr ⟨w, k, hw, rfl⟩

theorem split_slashes (k : Nat) (hn : slash ∉ n) : split (slashes k ++ n) = (slashes k, n) := by
  have hf : Front (slashes k) := fun c hc => List.eq_of_mem_replicate (List.mem_of_getLast? hc)
  rw [split_front hf hn, if_pos (by simp [slashes])]

theorem split_trimmed (h : Trimmed w) (k : Nat) (hn : slash ∉ n) :
    split (w ++ slashes (k + 1) ++ n) = (w, n) := by
  have hf : Front (w ++ slashes (k + 1)) := fun c hc => by
    rw [getLast?_slashes] at hc
    exact (Option.some.inj hc).symm
  obtain ⟨init, c, rfl, hc⟩ := h.exists_concat
  have hdrop : ((init ++ [c] ++ slashes (k + 1)).reverse.dropWhile (· == slash)).reverse =
      init ++ [c] := by
    rw [List.reverse_append, List.dropWhile_append_of_pos (by simp [slashes])]
    simp [hc]
  rw [split_front hf hn, if_neg (by simp [hc]), hdrop]

/-- The slashes in front of the last part are told from what stands in front of them. -/
theorem trimmed_inj {v : Text} {j : Nat} (hv : Trimmed v) (hw : Trimmed w) (hm : slash ∉ m)
    (hn : slash ∉ n) (h : v ++ slashes (j + 1) ++ m = w ++ slashes (k + 1) ++ n) :
    v = w ∧ j = k ∧ m = n := by
  have hsplit := congrArg split h
  rw [split_trimmed hv j hm, split_trimmed hw k hn] at hsplit
  obtain ⟨rfl, rfl⟩ := Prod.mk.inj hsplit
  have hlength := congrArg List.length h
  simp only [slashes, List.length_append, List.length_replicate] at hlength
  exact ⟨rfl, by omega, rfl⟩

theorem names_append (a b : Text) : names (a ++ slash :: b) = names a ++ names b := by
  rw [names, names, names, ← List.filter_append]
  exact congrArg _ (Text.splitOn_append slash a b)

theorem names_slashes (a b : Text) (k : Nat) :
    names (a ++ slashes (k + 1) ++ b) = names a ++ names b := by
  induction k generalizing b with
  | zero => rw [← names_append]; simp [slashes]
  | succ k ih =>
    have hnames := names_append [] b
    rw [slashes_succ, ← List.append_assoc, List.append_assoc _ [slash], List.singleton_append, ih,
      ← List.nil_append (slash :: b), hnames]
    rfl

/-- The leading slashes are settled before a path comes to its end, unless it ends in one. -/
theorem root_append (h : Trimmed d) (r : Text) : root (d ++ r) = root d := by
  obtain ⟨hne, hlast⟩ := h
  match d with
  | [] => exact absurd rfl hne
  | [a] =>
    have ha : a ≠ .char '/' := by simpa [slash] using hlast
    simp [root, ha]
  | [a, b] =>
    have hb : b ≠ .char '/' := by simpa [slash] using hlast
    by_cases ha : a = .char '/' <;> simp [root, ha, hb]
  | a :: b :: c :: d =>
    by_cases ha : a = .char '/' <;> by_cases hb : b = .char '/' <;>
      by_cases hc : c = .char '/' <;> simp [root, ha, hb, hc]

theorem join_behind (e : Text) (hm : Relative m) (r : Text) :
    join (e ++ slash :: r) m = e ++ slash :: join r m := by
  have hne : e ++ slash :: r ≠ [] := List.append_ne_nil_of_right_ne_nil _ (List.cons_ne_nil _ _)
  rw [join_eq_stem hne hm]
  by_cases hr : r = []
  · subst hr
    rw [nil_join, stem, if_pos (by simp)]
    simp
  · have hlast : (e ++ slash :: r).getLast? = r.getLast? := by
      rw [List.getLast?_append_of_ne_nil _ (List.cons_ne_nil _ _), ← List.singleton_append,
        List.getLast?_append_of_ne_nil _ hr]
    rw [join_eq_stem hr hm, stem, stem, hlast]
    split <;> simp

theorem join_slashes (k : Nat) (hm : Relative m) :
    join (slashes (k + 1)) m = slashes (k + 1) ++ m := by
  have hne : slashes (k + 1) ≠ [] := List.cons_ne_nil _ _
  have hlast : (slashes (k + 1)).getLast? = some slash := getLast?_slashes [] k
  rw [join_eq_stem hne hm, stem, if_pos (by simpa using hlast)]

theorem join_ne_nil (hm : Relative m) (h : r ≠ [] ∨ m ≠ []) : join r m ≠ [] := by
  by_cases hr : r = []
  · rw [hr, nil_join]
    exact h.resolve_left fun hne => hne hr
  · rw [join_eq_stem hr hm, stem]
    split
    · exact List.append_ne_nil_of_left_ne_nil hr _
    · exact List.append_ne_nil_of_left_ne_nil (List.append_ne_nil_of_left_ne_nil hr _) _

end Path

inductive Respelled : Text → Text → Prop
  | plain {d : Text} (hd : Trimmed d) (hplain : Wildcard.isMagic d = false) : Respelled d d
  | root (k : Nat) {n : Text} (hn : slash ∉ n) (hmagic : Wildcard.isMagic n = true) :
      Respelled (slashes k ++ n) (slashes k ++ n)
  | behind {d e n : Text} (k : Nat) (h : Respelled d e) (hne : n ≠ []) (hn : slash ∉ n)
      (hmagic : Wildcard.isMagic (d ++ n) = true) :
      Respelled (d ++ slashes (k + 1) ++ n) (e ++ slash :: n)

inductive SearchedAs : Text → Text → Prop
  | slashes (k : Nat) : SearchedAs (slashes k) (slashes k)
  | trimmed {d e : Text} (k : Nat) (h : Respelled d e) : SearchedAs (d ++ Path.slashes k) e

/-- No two slashes stand side by side behind a wildcard or right in front of a name with one, unless
they are among those that the path starts with. -/
def Single (d : Text) : Prop :=
  ∀ p n q, d = p ++ slash :: slash :: n ++ q → slash ∉ n → Wildcard.isMagic (p ++ n) = true →
    ∃ k, p = slashes k

/-- A spelling that a search keeps: no slash ends it, unless there is nothing else, and slashes
stand alone wherever wildcards are about. -/
structure Kept (d : Text) : Prop where
  last : Trimmed d ∨ ∃ k, d = slashes k
  single : Single d

theorem Single.of_append (h : Single (d ++ r)) : Single d := fun p n q heq =>
  h p n (q ++ r) (by rw [heq, List.append_assoc])

theorem exists_of_slashes_eq (h : slashes k = p ++ q) : ∃ j, p = slashes j :=
  ⟨p.length, (List.replicate_eq_append_iff.mp h).2.1⟩

/-- Slashes side by side do not reach into what stands behind a single one. -/
theorem exists_of_single (hd : Trimmed d) (hm : slash ∉ m) (hn : slash ∉ n)
    (h : d ++ slash :: m = p ++ slash :: slash :: n ++ q) :
    ∃ r, d = p ++ slash :: slash :: n ++ r := by
  rw [List.append_assoc] at h
  obtain ⟨before, -, hback⟩ | ⟨behind, rfl, hback⟩ := List.append_eq_append_iff.mp h
  · cases before with
    | nil =>
      obtain rfl := (List.cons.inj hback).2
      simp at hm
    | cons c before =>
      obtain rfl := (List.cons.inj hback).2
      simp at hm
  match behind with
  | [] =>
    obtain rfl := (List.cons.inj hback).2
    simp at hm
  | [c] =>
    obtain rfl := (List.cons.inj hback).1
    exact absurd (List.getLast?_concat ..) hd.last
  | c :: c' :: behind =>
    simp only [List.cons_append, List.cons.injEq] at hback
    obtain ⟨rfl, rfl, hback⟩ := hback
    obtain ⟨r, rfl, -⟩ | ⟨r, rfl, hrest⟩ := List.append_eq_append_iff.mp hback
    · exact ⟨r, by simp⟩
    · cases r with
      | nil => exact ⟨[], by simp⟩
      | cons c r =>
        obtain rfl := (List.cons.inj hrest).1
        simp at hn

theorem isMagic_slashes (k : Nat) : Wildcard.isMagic (slashes k) = false := by
  refine List.any_eq_false.mpr fun c hc => ?_
  rw [List.eq_of_mem_replicate hc]
  decide

theorem ne_nil_of_isMagic (h : Wildcard.isMagic n = true) : n ≠ [] := by
  rintro rfl
  cases h

namespace Respelled

theorem trimmed (h : Respelled d e) : Trimmed d ∧ Trimmed e := by
  cases h with
  | plain hd => exact ⟨hd, hd⟩
  | root k hn hmagic =>
    have htrimmed := Trimmed.append_name (ne_nil_of_isMagic hmagic) hn (slashes k)
    exact ⟨htrimmed, htrimmed⟩
  | @behind d e n k h hne hn _ =>
    have hright := Trimmed.append_name hne hn (e ++ [slash])
    rw [List.append_assoc] at hright
    exact ⟨.append_name hne hn _, hright⟩

theorem sublist (h : Respelled d e) : e.Sublist d := by
  induction h with
  | plain | root => exact .refl _
  | @behind d e n k _ _ _ _ ih =>
    have hslash : [slash].Sublist (slashes (k + 1)) :=
      List.singleton_sublist.mpr (List.mem_replicate.mpr ⟨k.succ_ne_zero, rfl⟩)
    have hall := (ih.append hslash).append (List.Sublist.refl n)
    rwa [List.append_assoc] at hall

theorem names_eq (h : Respelled d e) : names d = names e := by
  induction h with
  | plain | root => rfl
  | behind k _ _ _ _ ih => rw [names_slashes, names_append, ih]

theorem root_eq (h : Respelled d e) : Path.root d = Path.root e := by
  induction h with
  | plain | root => rfl
  | behind k h _ _ _ ih =>
    rw [List.append_assoc, root_append h.trimmed.1, root_append h.trimmed.2, ih]

/-- Nothing but slashes is dropped. -/
theorem mem_or {c : CodePoint} (h : Respelled d e) (hc : c ∈ d) : c = slash ∨ c ∈ e := by
  induction h with
  | plain | root => exact .inr hc
  | behind k _ _ _ _ ih =>
    rw [List.mem_append, List.mem_append] at hc
    obtain (hc | hc) | hc := hc
    · exact (ih hc).imp_right (List.mem_append_left _)
    · exact .inl (List.eq_of_mem_replicate hc)
    · exact .inr (List.mem_append_right _ (List.mem_cons_of_mem _ hc))

/-- What a search spells in another way it spells with fewer slashes side by side. -/
theorem doubled_cases (h : Respelled d e) : e = d ∨ doubled e < doubled d := by
  induction h with
  | plain | root => exact .inl rfl
  | @behind d e n k h _ hn _ ih =>
    obtain ⟨hd, he⟩ := h.trimmed
    have hleft : doubled (d ++ slashes (k + 1) ++ n) = doubled d + k := by
      rw [List.append_assoc, doubled_append hd.last, doubled_slashes hn]
    rw [hleft, doubled_of_apart he.last (apart_of_notMem hn)]
    obtain rfl | hlt := ih
    · cases k with
      | zero => exact .inl (by simp [slashes])
      | succ k => exact .inr (by omega)
    · exact .inr (by omega)

theorem unique {e' : Text} (h : Respelled d e) (h' : Respelled d e') : e = e' := by
  induction h generalizing e' with
  | plain hd hplain =>
    cases h' with
    | plain | root => rfl
    | behind k h _ _ hmagic =>
      rw [Wildcard.isMagic_append] at hmagic
      rw [Wildcard.isMagic_append, Wildcard.isMagic_append, isMagic_slashes, Bool.or_false,
        hmagic] at hplain
      cases hplain
  | @root k n hn hmagic =>
    generalize hd : slashes k ++ n = d at h'
    cases h' with
    | plain | root => rfl
    | behind j h _ hm _ =>
      have hsplit := congrArg split hd
      rw [split_slashes k hn, split_trimmed h.trimmed.1 j hm] at hsplit
      exact absurd (Prod.mk.inj hsplit).1.symm (by simpa [slashes] using h.trimmed.1.ne_slashes 0)
  | @behind d e n k h hne hn hmagic ih =>
    generalize hd : d ++ slashes (k + 1) ++ n = p at h'
    cases h' with
    | plain _ hplain =>
      rw [Wildcard.isMagic_append] at hmagic
      rw [← hd, Wildcard.isMagic_append, Wildcard.isMagic_append, isMagic_slashes, Bool.or_false,
        hmagic] at hplain
      cases hplain
    | root j hm _ =>
      have hsplit := congrArg split hd
      rw [split_slashes j hm, split_trimmed h.trimmed.1 k hn] at hsplit
      exact absurd (Prod.mk.inj hsplit).1 (by simpa [slashes] using h.trimmed.1.ne_slashes 0)
    | behind j h' _ hm _ =>
      obtain ⟨rfl, rfl, rfl⟩ := trimmed_inj h.trimmed.1 h'.trimmed.1 hn hm hd
      rw [ih h']

/-- A spelling that stays the same has its slashes apart. -/
theorem single (h : Respelled d e) (heq : e = d) : Single d := by
  induction h with
  | plain _ hplain =>
    rintro p n q rfl - hmagic
    have hslash : Wildcard.isMagic (slash :: slash :: n) = Wildcard.isMagic n := rfl
    simp only [Wildcard.isMagic_append, hslash, Bool.or_eq_false_iff] at hplain
    rw [Wildcard.isMagic_append, hplain.1.1, hplain.1.2] at hmagic
    cases hmagic
  | @root k m hm _ =>
    intro p n q hd _ _
    rw [List.append_assoc] at hd
    obtain ⟨r, -, rfl⟩ | ⟨r, hfront, -⟩ := List.append_eq_append_iff.mp hd
    · simp at hm
    · exact exists_of_slashes_eq hfront
  | @behind d e m k h _ hm _ ih =>
    have hlength := congrArg List.length heq
    have hle := h.sublist.length_le
    simp only [slashes, List.length_append, List.length_cons, List.length_replicate] at hlength
    obtain rfl : k = 0 := by omega
    obtain rfl : e = d := h.sublist.eq_of_length (by omega)
    intro p n q hd hn
    obtain ⟨r, hr⟩ := exists_of_single h.trimmed.1 hm hn (by rw [← hd]; simp [slashes])
    exact ih rfl p n r hr hn

/-- A spelling in which slashes stand apart stays the same. -/
theorem eq_of_single (h : Respelled d e) (hsingle : Single d) : e = d := by
  induction h with
  | plain | root => rfl
  | @behind d e n k h _ hn hmagic ih =>
    cases k with
    | zero =>
      rw [List.append_assoc] at hsingle
      rw [ih hsingle.of_append]
      simp [slashes]
    | succ k =>
      have heq : d ++ slashes (k + 1 + 1) ++ n = d ++ slashes k ++ slash :: slash :: n ++ [] := by
        simp [slashes_succ]
      have hspecial : Wildcard.isMagic (d ++ slashes k ++ n) = true := by
        rw [Wildcard.isMagic_append] at hmagic ⊢
        rw [Wildcard.isMagic_append]
        obtain h | h := Bool.or_eq_true_iff.mp hmagic <;> simp [h]
      obtain ⟨j, hj⟩ := hsingle _ _ _ heq hn hspecial
      exact absurd hj (h.trimmed.1.ne_slashes k)

end Respelled

namespace SearchedAs

theorem sublist (h : SearchedAs d e) : e.Sublist d := by
  cases h with
  | slashes => exact .refl _
  | trimmed k h => exact h.sublist.trans (List.sublist_append_left _ _)

theorem mem_or {c : CodePoint} (h : SearchedAs d e) (hc : c ∈ d) : c = slash ∨ c ∈ e := by
  cases h with
  | slashes => exact .inr hc
  | trimmed k h =>
    obtain hc | hc := List.mem_append.mp hc
    · exact h.mem_or hc
    · exact .inl (List.eq_of_mem_replicate hc)

/-- A directory that is spelled in another way has a slash more at its end, or more slashes side by
side. -/
theorem doubled_cases (h : SearchedAs d e) :
    e = d ∨ d = e ++ [slash] ∨ doubled e < doubled d := by
  cases h with
  | slashes => exact .inl rfl
  | @trimmed d e k h =>
    have hleft (k : Nat) : doubled (d ++ Path.slashes (k + 1)) = doubled d + k := by
      have hslashes := doubled_slashes (n := []) List.not_mem_nil k
      rw [List.append_nil] at hslashes
      rw [doubled_append h.trimmed.1.last, hslashes]
    obtain rfl | hlt := h.doubled_cases
    · match k with
      | 0 => exact .inl (List.append_nil e).symm
      | 1 => exact .inr (.inl rfl)
      | k + 2 => exact .inr (.inr (by rw [hleft]; omega))
    · cases k with
      | zero => exact .inr (.inr (by rwa [Path.slashes, List.replicate_zero, List.append_nil]))
      | succ k => exact .inr (.inr (by rw [hleft]; omega))

theorem unique {e' : Text} (h : SearchedAs d e) (h' : SearchedAs d e') : e = e' := by
  cases h with
  | slashes k =>
    generalize hd : Path.slashes k = d at h'
    cases h' with
    | slashes => rfl
    | trimmed j h' => exact absurd hd.symm (h'.trimmed.1.ne_slashes j)
  | @trimmed d e k h =>
    generalize hd : d ++ Path.slashes k = p at h'
    cases h' with
    | slashes => exact absurd hd (h.trimmed.1.ne_slashes k)
    | @trimmed d' _ j h' =>
      have hbehind : d ++ Path.slashes (k + 1) ++ [] = d' ++ Path.slashes (j + 1) ++ [] := by
        rw [slashes_succ, slashes_succ, ← List.append_assoc, ← List.append_assoc, hd]
      obtain ⟨rfl, -⟩ := trimmed_inj h.trimmed.1 h'.trimmed.1 List.not_mem_nil List.not_mem_nil
        hbehind
      exact h.unique h'

/-- A directory is spelled as it is given exactly if the spelling is one that a search keeps. -/
theorem eq_iff_kept (h : SearchedAs d e) : e = d ↔ Kept d := by
  cases h with
  | slashes k =>
    refine iff_of_true rfl ⟨.inr ⟨k, rfl⟩, fun p n q heq _ _ => ?_⟩
    rw [List.append_assoc] at heq
    exact exists_of_slashes_eq heq
  | @trimmed d e k h =>
    obtain ⟨hd, -⟩ := h.trimmed
    constructor
    · intro heq
      have hlength := congrArg List.length heq
      have hle := h.sublist.length_le
      simp only [Path.slashes, List.length_append, List.length_replicate] at hlength
      obtain rfl : k = 0 := by omega
      have hnil : d ++ Path.slashes 0 = d := List.append_nil d
      rw [hnil] at heq ⊢
      exact ⟨.inl hd, h.single heq⟩
    · rintro ⟨hlast | ⟨j, hj⟩, hsingle⟩
      · cases k with
        | zero =>
          have hnil : d ++ Path.slashes 0 = d := List.append_nil d
          rw [hnil] at hsingle ⊢
          exact h.eq_of_single hsingle
        | succ k => exact absurd (getLast?_slashes d k) hlast.last
      · exact absurd hj (hd.ne_slashes k)

/-- Behind a directory the same names are met, however it is spelled. -/
theorem clean_eq (h : SearchedAs d e) (r : Text) :
    clean (d ++ slash :: r) = clean (e ++ slash :: r) := by
  cases h with
  | slashes k => rfl
  | @trimmed d e k h =>
    obtain ⟨hd, he⟩ := h.trimmed
    have hpath : d ++ Path.slashes k ++ slash :: r = d ++ Path.slashes (k + 1) ++ r := by
      simp [slashes_succ]
    have hnames : names (d ++ Path.slashes (k + 1) ++ r) = names (e ++ slash :: r) := by
      rw [names_slashes, names_append, h.names_eq]
    have hroot : root (d ++ Path.slashes (k + 1) ++ r) = root (e ++ slash :: r) := by
      rw [List.append_assoc, root_append hd, root_append he, h.root_eq]
    rw [hpath, clean, clean, hnames, hroot]

theorem read_eq (h : SearchedAs d e) (fs : FileSystem) (r : Text) :
    fs.read (d ++ slash :: r) = fs.read (e ++ slash :: r) := by
  simp only [FileSystem.read, h.clean_eq]

end SearchedAs

/-- Slashes that stand apart and none at the end make a spelling that is kept. -/
theorem kept_of_apart (hd : Trimmed d) (h : ¬ [slash, slash] <:+: d) : Kept d where
  last := .inl hd
  single p n q heq _ _ := absurd ⟨p, n ++ q, by rw [heq]; simp⟩ h

theorem escape_slashes (k : Nat) : Wildcard.escape (slashes k) = slashes k :=
  Wildcard.escape_of_plain (isMagic_slashes k)

theorem Path.Trimmed.escape (h : Trimmed w) : Trimmed (Wildcard.escape w) := by
  obtain ⟨init, c, rfl, hc⟩ := h.exists_concat
  have hname : slash ∉ [c] := fun hmem => hc (List.mem_singleton.mp hmem).symm
  rw [Wildcard.escape_append]
  exact .append_name (Wildcard.escape_ne_nil (List.cons_ne_nil _ _)) (slash_notMem_escape hname) _

namespace Glob

/-- The directories that are looked in where an escaped path stands in front of the last part. -/
theorem respelled_of_parents (hw : Trimmed w) (hsplit : (split p).1 = Wildcard.escape w)
    (hsearch : Wildcard.isMagic w = true →
      ∀ x ∈ search fs deep limit true (Wildcard.escape w), Respelled w x)
    (hx : x ∈ parents fs deep limit p) : Respelled w x := by
  cases hmagic : Wildcard.isMagic w with
  | true =>
    rw [parents_of_magic fs deep limit (by rw [hsplit, Wildcard.isMagic_escape, hmagic]), hsplit] at hx
    exact hsearch hmagic x hx
  | false =>
    rw [parents_of_plain fs deep limit (by rw [hsplit, Wildcard.isMagic_escape, hmagic]), hsplit,
      Wildcard.escape_of_plain hmagic] at hx
    rw [List.mem_singleton.mp hx]
    exact .plain hw hmagic

/-- An escaped path finds itself as it is respelled, and nothing else. -/
theorem respelled_of_search (hd : Trimmed d) (hmagic : Wildcard.isMagic d = true)
    (hx : x ∈ search fs deep limit directories (Wildcard.escape d)) : Respelled d x := by
  induction limit generalizing d x directories with
  | zero => cases hx
  | succ limit ih =>
    have hescape : Wildcard.isMagic (Wildcard.escape d) = true := by
      rw [Wildcard.isMagic_escape, hmagic]
    obtain ⟨n, hn, ⟨k, rfl⟩ | ⟨w, k, hw, rfl⟩⟩ := exists_parted d
    · -- Nothing but slashes in front: a name of the current directory, or one of the root.
      have hspecial : Wildcard.isMagic n = true := by
        rwa [Wildcard.isMagic_append, isMagic_slashes, Bool.false_or] at hmagic
      have hsplit : split (Wildcard.escape (slashes k ++ n)) = (slashes k, Wildcard.escape n) := by
        rw [Wildcard.escape_append, escape_slashes]
        exact split_slashes k (slash_notMem_escape hn)
      cases k with
      | zero =>
        rw [search_part limit hescape (congrArg Prod.fst hsplit)] at hx
        obtain rfl := eq_of_inDirectory_escape (n := n) hx
        exact .root 0 hn hspecial
      | succ k =>
        obtain ⟨e, he, m, hm, rfl⟩ :=
          (mem_search_rows hescape (by rw [hsplit]; exact List.cons_ne_nil _ _)).mp hx
        rw [parents_of_plain fs deep limit (by rw [hsplit]; exact isMagic_slashes _), hsplit] at he
        rw [hsplit] at hm
        obtain rfl := List.mem_singleton.mp he
        obtain rfl := eq_of_inDirectory_escape hm
        rw [join_slashes k (relative_of_notMem hn)]
        exact .root (k + 1) hn hspecial
    · have hsplit : split (Wildcard.escape (w ++ slashes (k + 1) ++ n)) =
          (Wildcard.escape w, Wildcard.escape n) := by
        rw [Wildcard.escape_append, Wildcard.escape_append, escape_slashes]
        exact split_trimmed hw.escape k (slash_notMem_escape hn)
      obtain ⟨e, he, m, hm, rfl⟩ :=
        (mem_search_rows hescape (by rw [hsplit]; exact hw.escape.ne_nil)).mp hx
      rw [hsplit] at hm
      obtain rfl := eq_of_inDirectory_escape hm
      have hrespelled := respelled_of_parents hw (congrArg Prod.fst hsplit)
        (fun hmagic _ hx => ih hw hmagic hx) he
      obtain ⟨-, htrimmed⟩ := hrespelled.trimmed
      rw [join_of_last htrimmed.ne_nil htrimmed.last (relative_of_notMem hn)]
      have hne : m ≠ [] := by
        rintro rfl
        rw [List.append_nil] at hd
        exact hd.last (getLast?_slashes w k)
      refine .behind k hrespelled hne hn ?_
      rwa [Wildcard.isMagic_append, Wildcard.isMagic_append, isMagic_slashes, Bool.or_false,
        ← Wildcard.isMagic_append] at hmagic

theorem split_deepPattern_slashes (k : Nat) :
    split (deepPattern (slashes k)) = (slashes (k + 1), deepMark) := by
  have hmark : slash ∉ deepMark := by decide
  rw [deepPattern, escape_slashes, ← split_slashes (k + 1) hmark, slashes_succ]
  simp

theorem split_deepPattern_trimmed (hw : Trimmed w) (k : Nat) :
    split (deepPattern (w ++ slashes k)) = (Wildcard.escape w, deepMark) := by
  have hmark : slash ∉ deepMark := by decide
  rw [← split_trimmed hw.escape k hmark, deepPattern, Wildcard.escape_append, escape_slashes,
    slashes_succ]
  simp

variable (hfs : fs.Named)
include hfs

/-- Two stars behind an escaped directory find what lies behind the directory, as it is spelled. -/
theorem searchedAs_of_deepPattern
    (hx : x ∈ search fs true limit directories (deepPattern d)) :
    ∃ e r, SearchedAs d e ∧ Apart r ∧ x = e ++ slash :: r := by
  cases limit with
  | zero => cases hx
  | succ limit =>
    have hmark : slash ∉ deepMark := by decide
    obtain ⟨k, rfl⟩ | ⟨w, k, hw, rfl⟩ := exists_trimmed d
    · have hsplit := split_deepPattern_slashes k
      obtain ⟨e, he, m, hm, rfl⟩ := (mem_search_rows (isMagic_deepPattern _)
        (by rw [hsplit]; exact List.cons_ne_nil _ _)).mp hx
      rw [parents_of_plain fs true limit (by rw [hsplit]; exact isMagic_slashes _), hsplit] at he
      rw [hsplit] at hm
      obtain rfl := List.mem_singleton.mp he
      have hm := inDirectory_apart hfs hmark hm
      refine ⟨slashes k, m, .slashes k, hm, ?_⟩
      rw [join_slashes k hm.relative, slashes_succ]
      simp
    · have hsplit := split_deepPattern_trimmed hw k
      obtain ⟨e, he, m, hm, rfl⟩ := (mem_search_rows (isMagic_deepPattern _)
        (by rw [hsplit]; exact hw.escape.ne_nil)).mp hx
      rw [hsplit] at hm
      have hrespelled := respelled_of_parents hw (congrArg Prod.fst hsplit)
        (fun hmagic _ hx => respelled_of_search hw hmagic hx) he
      obtain ⟨-, htrimmed⟩ := hrespelled.trimmed
      have hm := inDirectory_apart hfs hmark hm
      exact ⟨e, m, .trimmed k hrespelled, hm,
        join_of_last htrimmed.ne_nil htrimmed.last hm.relative⟩

omit hfs in
theorem ne_nil_of_extensionPart
    (hn : n ∈ inDirectory fs true directories d (extensionPart extension)) : n ≠ [] := by
  rw [inDirectory_extensionPart, matching] at hn
  rintro rfl
  have haccepts := (Bool.and_eq_true_iff.mp (List.mem_filter.mp hn).2).2
  simp [Wildcard.accepts, Wildcard.parts, extensionPart, Wildcard.partsOf,
    Wildcard.matchParts, Wildcard.anyEnd] at haccepts

omit hfs in
/-- An extension is a part of a name, or goes on behind slashes. -/
theorem exists_extension (extension : Text) : slash ∉ extension ∨ ∃ w k n,
    (w = [] ∨ Trimmed w) ∧ slash ∉ n ∧ extension = w ++ slashes (k + 1) ++ n := by
  obtain ⟨n, hn, ⟨k, rfl⟩ | ⟨w, k, hw, rfl⟩⟩ := exists_parted extension
  · cases k with
    | zero => exact .inl hn
    | succ k => exact .inr ⟨[], k, n, .inl rfl, hn, rfl⟩
  · exact .inr ⟨w, k, n, .inr hw, hn, rfl⟩

omit hfs in
theorem trimmed_filesPattern (hw : w = [] ∨ Trimmed w) : Trimmed (filesPattern d w) where
  ne_nil := List.append_ne_nil_of_right_ne_nil _ (List.cons_ne_nil _ _)
  last := by
    have heq : filesPattern d w =
        deepPattern d ++ [slash, .char '*', .char '.'] ++ w := by
      simp [filesPattern, extensionPart]
    rw [heq]
    obtain rfl | hw := hw
    · simp [slash]
    · rw [List.getLast?_append_of_ne_nil _ hw.ne_nil]
      exact hw.last

/-- The files with an extension below a directory are found behind it, as it is spelled. -/
theorem searchedAs_of_filesPattern
    (hx : x ∈ search fs true limit directories (filesPattern d extension)) :
    ∃ e r, SearchedAs d e ∧ Apart r ∧ r ≠ [] ∧ x = e ++ slash :: r := by
  induction limit generalizing extension x directories with
  | zero => cases hx
  | succ limit ih =>
    have hmagic := isMagic_filesPattern d extension
    obtain hslash | ⟨w, k, n, hw, hn, rfl⟩ := exists_extension extension
    · have hsplit := split_filesPattern (d := d) hslash
      have hpart : slash ∉ extensionPart extension := by simpa [extensionPart, slash] using hslash
      obtain ⟨y, hy, m, hm, rfl⟩ := (mem_search_rows hmagic (filesPattern_dir_ne_nil hslash)).mp hx
      rw [parents_filesPattern hslash] at hy
      obtain ⟨e, r, hspelled, hr, rfl⟩ := searchedAs_of_deepPattern hfs hy
      rw [hsplit] at hm
      have hapart := inDirectory_apart hfs hpart hm
      have hne : m ≠ [] := ne_nil_of_extensionPart hm
      exact ⟨e, join r m, hspelled, hr.join hapart, join_ne_nil hapart.relative (.inr hne),
        join_behind e hapart.relative r⟩
    · have hsplit : split (filesPattern d (w ++ slashes (k + 1) ++ n)) = (filesPattern d w, n) := by
        rw [← split_trimmed (trimmed_filesPattern hw) k hn]
        simp [filesPattern, extensionPart]
      obtain ⟨y, hy, m, hm, rfl⟩ := (mem_search_rows hmagic
        (by rw [hsplit]; exact (trimmed_filesPattern hw).ne_nil)).mp hx
      rw [parents_of_magic fs true limit (by rw [hsplit]; exact isMagic_filesPattern d w),
        hsplit] at hy
      obtain ⟨e, r, hspelled, hr, hne, rfl⟩ := ih hy
      rw [hsplit] at hm
      have hm := inDirectory_apart hfs hn hm
      exact ⟨e, join r m, hspelled, hr.join hm, join_ne_nil hm.relative (.inl hne),
        join_behind e hm.relative r⟩

end Glob

end Terraload
