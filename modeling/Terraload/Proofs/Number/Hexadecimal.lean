import Mathlib.Data.List.Basic
import Terraload.Number.Digits
/-!
Hexadecimal digits: the numbers that four of them write, and the digits of a number read back.
-/
namespace Terraload

variable {a b c d x : Char} {n : Nat}

def hexDigit (x : Char) : Bool := (hexValue? x).isSome

theorem hexValue?_lt (h : hexValue? x = some n) : n < 16 := by
  unfold hexValue? at h
  simp only [Char.le_def, UInt32.le_iff_toNat_le, Bool.and_eq_true, decide_eq_true_eq] at h
  have hnat : x.toNat = x.val.toNat := rfl
  split at h
  · rename_i hx
    cases h
    have h9 : '9'.val.toNat = 57 := rfl
    omega
  split at h
  · rename_i hx
    cases h
    have hf : 'f'.val.toNat = 102 := rfl
    omega
  split at h
  · rename_i hx
    cases h
    have hF : 'F'.val.toNat = 70 := rfl
    omega
  · cases h

theorem hexNat?_four (h : hexNat? [a, b, c, d] = some n) :
    n < 0x10000 ∧ ∀ x ∈ [a, b, c, d], hexDigit x = true := by
  simp only [hexNat?, List.foldlM_cons, List.foldlM_nil, Option.bind_eq_bind, Option.bind_eq_some_iff,
    Option.map_eq_some_iff, Option.pure_def, Option.some.injEq] at h
  obtain ⟨_, ⟨i, hi, rfl⟩, _, ⟨j, hj, rfl⟩, _, ⟨k, hk, rfl⟩, _, ⟨l, hl, rfl⟩, rfl⟩ := h
  have hi' := hexValue?_lt hi
  have hj' := hexValue?_lt hj
  have hk' := hexValue?_lt hk
  have hl' := hexValue?_lt hl
  refine ⟨by omega, ?_⟩
  simp [hexDigit, hi, hj, hk, hl]

theorem hexValue?_digitChar (h : n < 16) : hexValue? (Nat.digitChar n) = some n := by
  have hall : ∀ k < 16, hexValue? (Nat.digitChar k) = some k := by decide
  exact hall n h

theorem hexNat?_append (xs : List Char) (x : Char) :
    hexNat? (xs ++ [x]) = (hexNat? xs).bind fun m => (hexValue? x).map (16 * m + ·) := by
  simp [hexNat?, List.foldlM_append]

theorem hexNat?_toDigits (n : Nat) : hexNat? (Nat.toDigits 16 n) = some n := by
  induction n using Nat.strongRecOn with
  | ind n ih =>
    rw [Nat.toDigits_eq_if (by decide)]
    split
    next hlt => simp [hexNat?, hexValue?_digitChar hlt]
    next hge =>
      rw [hexNat?_append, ih (n / 16) (by omega), hexValue?_digitChar (Nat.mod_lt n (by decide))]
      exact congrArg some (Nat.div_add_mod n 16)

theorem hexNat?_zeros (k : Nat) (xs : List Char) :
    hexNat? (List.replicate k '0' ++ xs) = hexNat? xs := by
  induction k with
  | zero => rfl
  | succ k ih => exact ih

/-- Four digits write a number of at most sixteen bits. -/
theorem hexDigits_four (h : n < 0x10000) :
    ∃ a b c d, hexDigits 4 n = [a, b, c, d] ∧ hexNat? [a, b, c, d] = some n := by
  have hfits : (Nat.toDigits 16 n).length ≤ 4 :=
    (Nat.length_toDigits_le_iff (by decide) (by decide)).mpr h
  have hlength : (hexDigits 4 n).length = 4 := by
    simp only [hexDigits, List.length_append, List.length_replicate]
    omega
  obtain ⟨a, b, c, d, hdigits⟩ := List.length_eq_four.mp hlength
  refine ⟨a, b, c, d, hdigits, ?_⟩
  rw [← hdigits, hexDigits, hexNat?_zeros, hexNat?_toDigits]

end Terraload
