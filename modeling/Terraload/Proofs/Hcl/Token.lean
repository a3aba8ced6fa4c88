import Terraload.Hcl.Token
import Terraload.Proofs.Number.Digits
/-!
The words of configuration text where nothing behind them continues them.
-/
namespace Terraload.Hcl

variable {c : Char} {k ds cs r s : List Char} {p : Char → Bool}

theorem nameStart_iff (c : Char) : nameStart c = true ↔
    97 ≤ c.toNat ∧ c.toNat ≤ 122 ∨ 65 ≤ c.toNat ∧ c.toNat ≤ 90 ∨ c.toNat = 95 := by
  simp only [nameStart, Bool.or_eq_true, Bool.and_eq_true, decide_eq_true_eq, Char.le_def,
    UInt32.le_iff_toNat_le, beq_iff_eq, or_assoc, ← Char.toNat_inj]
  exact Iff.rfl

def Without (p : Char → Bool) (r : List Char) : Prop := ∀ c, r.head? = some c → p c = false

theorem takeWhile_append (hcs : ∀ c ∈ cs, p c = true) (hr : Without p r) :
    (cs ++ r).takeWhile p = cs := by
  rw [List.takeWhile_append_of_pos hcs]
  cases r with
  | nil => simp
  | cons c r => simp [hr c rfl]

theorem dropWhile_append (hcs : ∀ c ∈ cs, p c = true) (hr : Without p r) :
    (cs ++ r).dropWhile p = r := by
  rw [List.dropWhile_append_of_pos hcs]
  cases r with
  | nil => rfl
  | cons c r => simp [hr c rfl]

def IsName (k : Name) : Prop :=
  ∃ c cs, k = c :: cs ∧ nameStart c = true ∧ ∀ x ∈ cs, nameChar x = true

theorem isName_cons (h : (nameStart c && cs.all nameChar) = true) : IsName (c :: cs) := by
  rw [Bool.and_eq_true] at h
  exact ⟨c, cs, rfl, h.1, List.all_eq_true.mp h.2⟩

theorem IsName.name? (hk : IsName k) (hr : Without nameChar r) : name? (k ++ r) = some (k, r) := by
  obtain ⟨c, cs, rfl, hc, hcs⟩ := hk
  rw [List.cons_append, Hcl.name?, if_pos hc, takeWhile_append hcs hr, dropWhile_append hcs hr]

theorem not_digit_of_nameStart (h : nameStart c = true) : decimalDigit c = false := by
  rw [nameStart_iff] at h
  rw [← Bool.not_eq_true, decimalDigit_iff]
  omega

theorem not_nameStart_of_digit (h : decimalDigit c = true) : nameStart c = false := by
  rw [decimalDigit_iff] at h
  rw [← Bool.not_eq_true, nameStart_iff]
  omega

theorem integer?_digits (hne : ds ≠ []) (hds : ∀ d ∈ ds, decimalDigit d = true)
    (hr : Without decimalDigit r) : integer? (ds ++ r) = some (ds, r) := by
  have htake := takeWhile_append hds hr
  have hdrop := dropWhile_append hds hr
  have hempty : ds.isEmpty = false := by simpa using hne
  unfold integer?
  split
  next heq =>
    cases ds with
    | nil => exact absurd rfl hne
    | cons d ds =>
      cases (List.cons.inj heq).1
      exact absurd (hds '-' (by simp)) (by decide)
  next => simp only [htake, hdrop, hempty, Bool.false_eq_true, if_false]

theorem integer?_eq_none (hc : decimalDigit c = false) (hminus : c ≠ '-') (r : List Char) :
    integer? (c :: r) = none := by
  unfold integer?
  split
  next heq => exact absurd (List.cons.inj heq).1 hminus
  next => simp [hc]

theorem signedDigits_of_ne (h : s.head? ≠ some '-') : signedDigits s = ([], s) := by
  unfold signedDigits
  split
  next => exact absurd rfl h
  next => rfl

theorem fraction?_of_ne (h : r.head? ≠ some '.') : fraction? r = none := by
  unfold fraction?
  split
  next => exact absurd rfl h
  next => rfl

theorem exponent?_of_ne (he : r.head? ≠ some 'e') (hE : r.head? ≠ some 'E') : exponent? r = none := by
  cases r with
  | nil => rfl
  | cons c r =>
    have hc : c ≠ 'e' := fun heq => he (by rw [heq]; rfl)
    have hC : c ≠ 'E' := fun heq => hE (by rw [heq]; rfl)
    simp [exponent?, hc, hC]

theorem Without.ne (h : Without p r) (hc : p c = true) : r.head? ≠ some c := by
  intro hhead
  rw [h c hhead] at hc
  cases hc

theorem exponent?_of_not_nameChar (h : Without nameChar r) : exponent? r = none :=
  exponent?_of_ne (h.ne rfl) (h.ne rfl)

theorem Without.digit (h : Without nameChar r) : Without decimalDigit r := by
  intro c hc
  have := h c hc
  simp only [nameChar, Bool.or_eq_false_iff] at this
  exact this.1.2

/-- Digits that neither a point nor a letter follows are an integer. -/
theorem numeral?_digits (hne : ds ≠ []) (hds : ∀ d ∈ ds, decimalDigit d = true)
    (hr : Without nameChar r) (hpoint : r.head? ≠ some '.') :
    numeral? (ds ++ r) = some (.integer ds, r) := by
  have hhead : (ds ++ r).head? ≠ some '-' := by
    cases ds with
    | nil => exact absurd rfl hne
    | cons d ds =>
      intro heq
      cases heq
      exact absurd (hds '-' (by simp)) (by decide)
  have hint := integer?_digits hne hds hr.digit
  simp [numeral?, real?, wholes, hint, signedDigits_of_ne hhead, fraction?_of_ne hpoint,
    exponent?_of_not_nameChar hr]

theorem signedDigits_negative (hc : decimalDigit c = true) (hs : s.head? ≠ some '-') :
    signedDigits ('-' :: c :: s) = (['-', c], s) := by
  rw [signedDigits, if_pos hc, signedDigits_of_ne hs]

/-- A minus sign and two or more digits are an integer. -/
theorem numeral?_negative (hlength : 2 ≤ ds.length) (hds : ∀ d ∈ ds, decimalDigit d = true)
    (hr : Without nameChar r) (hpoint : r.head? ≠ some '.') :
    numeral? ('-' :: (ds ++ r)) = some (.integer ('-' :: ds), r) := by
  have hint : integer? ('-' :: (ds ++ r)) = some ('-' :: ds, r) := by
    simp only [integer?, takeWhile_append hds hr.digit, dropWhile_append hds hr.digit,
      if_pos hlength]
  match ds, hlength with
  | d :: e :: ds, _ =>
    have he : decimalDigit e = true := hds e (by simp)
    have hsigned : signedDigits ('-' :: (d :: e :: ds ++ r)) = (['-', d], e :: (ds ++ r)) :=
      signedDigits_negative (hds d (by simp)) (by simpa using ne_of_test he rfl)
    have hfraction : fraction? (e :: (ds ++ r)) = none :=
      fraction?_of_ne (by simpa using ne_of_test he rfl)
    have hexponent : exponent? (e :: (ds ++ r)) = none :=
      exponent?_of_ne (by simpa using ne_of_test he rfl) (by simpa using ne_of_test he rfl)
    rw [List.cons_append, List.cons_append] at hint hsigned ⊢
    simp [numeral?, real?, wholes, hint, hsigned, fraction?_of_ne hpoint,
      exponent?_of_not_nameChar hr, hfraction, hexponent]

/-- A minus sign and a single digit are no number. -/
theorem numeral?_negative_digit (hc : decimalDigit c = true) (hr : Without nameChar r)
    (hpoint : r.head? ≠ some '.') : numeral? ('-' :: c :: r) = none := by
  have hds : ∀ d ∈ [c], decimalDigit d = true := by simpa using hc
  have hint : integer? ('-' :: c :: r) = none := by
    have htake := takeWhile_append hds hr.digit
    rw [List.singleton_append] at htake
    simp [integer?, htake]
  simp [numeral?, real?, wholes, hint, signedDigits_negative hc (hr.ne rfl),
    fraction?_of_ne hpoint, exponent?_of_not_nameChar hr]

theorem numeral?_name (hc : nameStart c = true) (r : List Char) : numeral? (c :: r) = none := by
  have hminus : c ≠ '-' := ne_of_test hc rfl
  have hint := integer?_eq_none (not_digit_of_nameStart hc) hminus r
  have hsigned : signedDigits (c :: r) = ([], c :: r) := signedDigits_of_ne (by simpa using hminus)
  simp [numeral?, real?, wholes, hint, hsigned]

end Terraload.Hcl
