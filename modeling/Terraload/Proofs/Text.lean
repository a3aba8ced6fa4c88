import Mathlib.Data.List.Basic
import Terraload.Text
/-!
Texts that are made of characters differ where the characters do. Code points differ where their
numbers do, and texts are in the order of their numbers.
-/
namespace Terraload

theorem Text.ofChars_injective : Function.Injective ofChars :=
  List.map_injective_iff.mpr fun _ _ => CodePoint.char.inj

theorem Text.ofChars_inj {cs ds : List Char} : ofChars cs = ofChars ds ↔ cs = ds :=
  ofChars_injective.eq_iff

theorem text_inj {s t : String} : text s = text t ↔ s = t := by
  rw [text, text, Text.ofChars_inj, String.toList_inj]

theorem Text.surrogate_notMem_ofChars (x : Surrogate) (cs : List Char) :
    .surrogate x ∉ ofChars cs := by
  simp [ofChars]

theorem Text.toChars?_eq_some {t : Text} {cs : List Char} :
    t.toChars? = some cs ↔ t = ofChars cs := by
  induction t generalizing cs with
  | nil =>
    have hnil : toChars? [] = some [] := rfl
    rw [hnil, Option.some.injEq, ofChars, eq_comm, List.nil_eq, List.map_eq_nil_iff]
  | cons a t ih =>
    cases a with
    | surrogate x =>
      have hnone : toChars? (.surrogate x :: t) = none := rfl
      refine iff_of_false (fun h => ?_) fun h => ?_
      · rw [hnone] at h
        cases h
      · exact surrogate_notMem_ofChars x cs (h ▸ List.mem_cons_self)
    | char c =>
      have hcons : toChars? (.char c :: t) = (toChars? t).map (c :: ·) := by
        simp only [toChars?, List.mapM_cons, CodePoint.toChar?]
        cases t.mapM CodePoint.toChar? <;> rfl
      cases cs with
      | nil => simp [hcons, ofChars]
      | cons d ds => simp [hcons, ih, ofChars, and_comm]

/-- Erasing leaves code points of the text alone. -/
theorem Text.eraseFirst_sublist (t part : Text) : (t.eraseFirst part).Sublist t := by
  induction t with
  | nil =>
    unfold eraseFirst
    split
    · exact List.drop_sublist _ _
    · exact List.Sublist.refl _
  | cons a t ih =>
    unfold eraseFirst
    split
    · exact List.drop_sublist _ _
    · exact ih.cons_cons a

theorem Text.cut_append {c : CodePoint} {l : Text} (h : c ∉ l) (r : Text) :
    (l ++ c :: r).cut c = (l, some r) := by
  induction l with
  | nil => rw [List.nil_append, cut, if_pos rfl]
  | cons a l ih =>
    obtain ⟨ha, hl⟩ := not_or.mp (List.mem_cons.not.mp h)
    rw [List.cons_append, cut, if_neg (Ne.symm ha), ih hl]

theorem Text.cut_of_notMem {c : CodePoint} {t : Text} (h : c ∉ t) : t.cut c = (t, none) := by
  induction t with
  | nil => rfl
  | cons a t ih =>
    obtain ⟨ha, ht⟩ := not_or.mp (List.mem_cons.not.mp h)
    rw [cut, if_neg (Ne.symm ha), ih ht]

/-- A text is cut at the first of the code points it is cut at. -/
theorem Text.cut_eq_some_iff {c : CodePoint} {t l r : Text} :
    t.cut c = (l, some r) ↔ c ∉ l ∧ t = l ++ c :: r := by
  constructor
  · intro h
    by_cases hmem : c ∈ t
    · obtain ⟨front, back, rfl, hfront⟩ := List.eq_append_cons_of_mem hmem
      rw [cut_append hfront] at h
      obtain ⟨rfl, hback⟩ := Prod.mk.inj h
      exact ⟨hfront, by rw [Option.some.inj hback]⟩
    · rw [cut_of_notMem hmem] at h
      cases h
  · rintro ⟨hl, rfl⟩
    exact cut_append hl r

namespace CodePoint

def firstHalf : CodePoint → Bool
  | .char _ => false
  | .surrogate s => s.offset.val < 0x400

theorem ofNat_val (c : CodePoint) : ofNat c.val = c := by
  cases c with
  | char c =>
    have hc : c.toNat < 0xD800 ∨ 0xDFFF < c.toNat ∧ c.toNat < 0x110000 := c.valid
    rw [val, ofNat, Char.ofNat_toNat]
    obtain hc | ⟨hlow, hhigh⟩ := hc
    · rw [if_pos hc]
    · rw [if_neg (by omega), dif_neg (by omega), if_pos hhigh]
  | surrogate s =>
    have hs := s.offset.isLt
    have hsub : 0xD800 + s.offset.val - 0xD800 = s.offset.val := Nat.add_sub_cancel_left ..
    rw [val, ofNat, if_neg (by omega), dif_pos (by omega)]
    exact congrArg (surrogate ⟨·⟩) (Fin.ext hsub)

theorem val_injective : Function.Injective val := fun a b h => by
  rw [← ofNat_val a, h, ofNat_val]

end CodePoint

/-- A text as bytes are decoded to it: for what is no UTF-8 it has second halves of surrogate pairs
alone, and never a first half. -/
def Text.Decoded (t : Text) : Prop := ∀ c ∈ t, c.firstHalf = false

theorem Text.decoded_ofChars (cs : List Char) : (ofChars cs).Decoded := by
  intro c hc
  obtain ⟨d, -, rfl⟩ := List.mem_map.mp hc
  rfl

/-- Of the surrogates only the first halves may not stand in a decoded text. -/
theorem Text.decoded_iff {t : Text} :
    t.Decoded ↔ ∀ x : Surrogate, CodePoint.firstHalf (.surrogate x) = true → .surrogate x ∉ t := by
  constructor
  · exact fun h x hx hmem => Bool.noConfusion (hx.symm.trans (h _ hmem))
  · intro h c hc
    cases c with
    | char c => rfl
    | surrogate x => exact Bool.eq_false_iff.mpr fun hx => h x hx hc

namespace Text

variable {s t u : Text}

def vals (t : Text) : List Nat := t.map CodePoint.val

/-- Texts are in the order in which their rows of numbers are. -/
theorem le_iff : s.le t = true ↔ ¬ t.vals < s.vals := by
  induction s generalizing t with
  | nil => exact iff_of_true rfl (List.not_lt_nil _)
  | cons a s ih =>
    cases t with
    | nil => exact iff_of_false Bool.false_ne_true (not_not_intro (List.nil_lt_cons _ _))
    | cons b t =>
      have hcons : vals (b :: t) < vals (a :: s) ↔
          b.val < a.val ∨ b.val = a.val ∧ vals t < vals s :=
        List.cons_lt_cons_iff
      rw [hcons, le]
      split
      next h => simp [ih, h]
      next h =>
        rw [decide_eq_true_eq]
        omega

theorem le_total (s t : Text) : (s.le t || t.le s) = true := by
  rw [Bool.or_eq_true, le_iff, le_iff]
  exact (List.le_total s.vals t.vals)

theorem le_trans (h : s.le t = true) (h' : t.le u = true) : s.le u = true := by
  rw [le_iff] at h h' ⊢
  exact List.le_trans h h'

theorem eq_of_le (h : s.le t = true) (h' : t.le s = true) : s = t := by
  rw [le_iff] at h h'
  exact List.map_injective_iff.mpr CodePoint.val_injective (List.le_antisymm h h')

/-- Different texts in order are strictly so. -/
theorem lt_of_le (h : s.le t = true) (hne : s ≠ t) : s.vals < t.vals := by
  by_contra h'
  exact hne (eq_of_le h (le_iff.mpr h'))

end Text

end Terraload
