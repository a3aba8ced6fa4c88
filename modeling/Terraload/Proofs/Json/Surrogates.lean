import Terraload.Proofs.Json.Reading
/-!
A form that only well-formed texts are written in makes no surrogates: the texts that are written in
it have none, if there are none in what is written.
-/
namespace Terraload.Json

variable {x : Surrogate} {d : Nat} {t s u : Text} {v : Value}

theorem ofNat_ne_surrogate {n : Nat} (h : ¬ (0xD800 ≤ n ∧ n < 0xE000)) :
    CodePoint.surrogate x ≠ .ofNat n := by
  intro heq
  have hx := x.offset.isLt
  have hval : CodePoint.val (.surrogate x) = 0xD800 + x.offset.val := rfl
  unfold CodePoint.ofNat at heq
  split at heq
  · cases heq
  split at heq
  · omega
  split at heq <;> cases heq

theorem Spells.no_surrogate (h : Spells false t s) (hs : .surrogate x ∉ s) : .surrogate x ∉ t := by
  induction h with
  | nil => exact hs
  | plain _ _ _ _ ih =>
    rw [List.mem_cons, not_or] at hs ⊢
    exact ⟨hs.1, ih hs.2⟩
  | short _ _ ih =>
    simp only [List.mem_cons, not_or] at hs ⊢
    exact ⟨CodePoint.noConfusion, ih hs.2.2⟩
  | pair _ _ hhigh hlow _ ih =>
    simp only [List.mem_cons, List.mem_append, not_or] at hs ⊢
    obtain ⟨hu, hu'⟩ := hhigh
    obtain ⟨hv, hv'⟩ := hlow
    exact ⟨ofNat_ne_surrogate (by omega), ih hs.2.2.2.2.2.2⟩
  | unit _ _ hlone _ ih =>
    simp only [List.mem_cons, List.mem_append, not_or] at hs ⊢
    exact ⟨ofNat_ne_surrogate (hlone.resolve_left Bool.false_ne_true), ih hs.2.2.2⟩

/-- What digits write is a number. -/
theorem Numeral.value?_number {n : Numeral} (h : n.value? = some (.ok v)) :
    (∃ i, v = .integer i) ∨ ∃ y, v = .real y := by
  unfold Numeral.value? numberValue? at h
  dsimp only at h
  split at h
  · split at h <;> cases h
    exact .inl ⟨_, rfl⟩
  · obtain ⟨y, -, hy⟩ := Option.map_eq_some_iff.mp h
    cases hy
    exact .inr ⟨y, rfl⟩

/-- A text is written between quotes, and in no other way. -/
theorem Writes.text_inv (h : Writes false d (.text t) u) :
    ∃ s, u = .char '"' :: (s ++ [.char '"']) ∧ Spells false t s := by
  generalize hv : Value.text t = v at h
  cases h with
  | word hword =>
    subst hv
    simp [words] at hword
  | number n hn => obtain ⟨i, rfl⟩ | ⟨y, rfl⟩ := n.value?_number hn <;> cases hv
  | text hs =>
    cases hv
    exact ⟨_, rfl, hs⟩
  | _ => cases hv

theorem Writes.text_no_surrogate (h : Writes false d (.text t) u) (hu : .surrogate x ∉ u) :
    .surrogate x ∉ t := by
  obtain ⟨s, rfl, hs⟩ := h.text_inv
  refine hs.no_surrogate fun hmem => hu ?_
  simp [hmem]

end Terraload.Json
