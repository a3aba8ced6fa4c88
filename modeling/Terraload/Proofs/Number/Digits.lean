import Mathlib.Data.List.Basic
import Mathlib.Data.Nat.Digits.Defs
import Terraload.Number.Digits
/-!
Telling characters apart, decimal digits by their code points, and the digits of a number read back.
A number has no more digits than it was written with.
-/
namespace Terraload

theorem ne_of_test {p : Char → Bool} {x y : Char} (hx : p x = true) (hy : p y = false) : x ≠ y := by
  intro heq
  subst heq
  rw [hx] at hy
  cases hy

theorem decimalDigit_iff (c : Char) : decimalDigit c = true ↔ 48 ≤ c.toNat ∧ c.toNat ≤ 57 := by
  simp only [decimalDigit, Bool.and_eq_true, decide_eq_true_eq, Char.le_def,
    UInt32.le_iff_toNat_le]
  exact Iff.rfl

theorem natDigits_ne_nil (n : Nat) : natDigits n ≠ [] := Nat.toDigits_ne_nil

theorem natDigits_digit {n : Nat} {c : Char} (h : c ∈ natDigits n) : decimalDigit c = true := by
  have hc := Nat.isDigit_of_mem_toDigits (by decide) (by decide) h
  simpa [Char.isDigit, decimalDigit, Char.le_def] using hc

theorem natDigits_cons (n : Nat) : ∃ d ds, natDigits n = d :: ds ∧ decimalDigit d = true := by
  obtain ⟨d, ds, hd⟩ := List.exists_cons_of_ne_nil (natDigits_ne_nil n)
  exact ⟨d, ds, hd, natDigits_digit (by rw [hd]; simp)⟩

/-- No zero stands in front of the digits of a number that is not zero itself. -/
theorem head?_natDigits {n : Nat} (h : 0 < n) : (natDigits n).head? ≠ some '0' := by
  induction n using Nat.strongRecOn with
  | ind n ih =>
    rw [natDigits, Nat.toDigits_eq_if (by decide)]
    split
    next hlt =>
      have hdigit : ∀ k < 10, 0 < k → [Nat.digitChar k].head? ≠ some '0' := by decide
      exact hdigit n hlt h
    next hge =>
      rw [List.head?_append_of_ne_nil _ Nat.toDigits_ne_nil]
      exact ih (n / 10) (by omega) (by omega)

theorem natOfDigits_natDigits (n : Nat) : natOfDigits (natDigits n) = n :=
  Nat.ofDigitChars_ten_toDigits

theorem intOfDigits_of_digits {ds : List Char} (h : ∀ d ∈ ds, decimalDigit d = true) :
    intOfDigits ds = natOfDigits ds := by
  unfold intOfDigits
  split
  next => exact absurd (h '-' (by simp)) (by decide)
  next => rfl

theorem foldl_digits_lt {ds : List Char} (h : ∀ d ∈ ds, decimalDigit d = true) (n : Nat) :
    ds.foldl (fun n c => 10 * n + digitValue c) n < (n + 1) * 10 ^ ds.length := by
  induction ds generalizing n with
  | nil => simp
  | cons d ds ih =>
    obtain ⟨hd, hds⟩ := List.forall_mem_cons.mp h
    have hvalue : digitValue d ≤ 9 := by
      have hrange := (decimalDigit_iff d).mp hd
      rw [digitValue]
      omega
    calc ds.foldl (fun n c => 10 * n + digitValue c) (10 * n + digitValue d)
        < (10 * n + digitValue d + 1) * 10 ^ ds.length := ih hds _
      _ ≤ (n + 1) * 10 * 10 ^ ds.length := Nat.mul_le_mul_right _ (by omega)
      _ = (n + 1) * 10 ^ (ds.length + 1) := by rw [Nat.pow_succ, Nat.mul_assoc, Nat.mul_comm 10]

/-- Zeros in front do not count. -/
theorem natOfDigits_dropWhile (ds : List Char) :
    natOfDigits (ds.dropWhile (· == '0')) = natOfDigits ds := by
  induction ds with
  | nil => rfl
  | cons d ds ih =>
    by_cases hd : d = '0'
    · rw [hd, List.dropWhile_cons_of_pos (by decide), ih]
      rfl
    · rw [List.dropWhile_cons_of_neg (by simpa using hd)]

theorem natDigits_length_le {n k : Nat} (hk : 0 < k) (h : n < 10 ^ k) : (natDigits n).length ≤ k :=
  Nat.toDigits_length 10 n k hk h

theorem lt_natDigits_length {n k : Nat} (h : 10 ^ k ≤ n) : k < (natDigits n).length := by
  by_contra hle
  have hlt := foldl_digits_lt (fun _ => natDigits_digit (n := n)) 0
  rw [Nat.zero_add, Nat.one_mul] at hlt
  have hpow : 10 ^ (natDigits n).length ≤ 10 ^ k := Nat.pow_le_pow_right (by decide) (Nat.not_lt.mp hle)
  exact absurd (natOfDigits_natDigits n ▸ Nat.lt_of_lt_of_le hlt hpow) (Nat.not_lt.mpr h)

/-- What up to `k` digits write has up to `k` digits. -/
theorem natDigits_natOfDigits_length {ds : List Char} {k : Nat}
    (h : ∀ d ∈ ds, decimalDigit d = true) (hk : 0 < k) (hlength : ds.length ≤ k) :
    (natDigits (natOfDigits ds)).length ≤ k := by
  refine natDigits_length_le hk (Nat.lt_of_lt_of_le (foldl_digits_lt h 0) ?_)
  rw [Nat.zero_add, Nat.one_mul]
  exact Nat.pow_le_pow_right (by decide) hlength

end Terraload
