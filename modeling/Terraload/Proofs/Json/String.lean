import Terraload.Proofs.Json.Grammar
import Terraload.Proofs.Json.Opening
/-!
Reading a string: what is read up to the closing quote spells the text that is returned, and every
spelling is read as its text.
-/
namespace Terraload.Json

variable {lone : Bool} {start r s t w p : Text} {u v : Nat}

theorem WritesUnit.no_quote (h : WritesUnit u p) : .char '"' ∉ p := by
  obtain ⟨h⟩ := h
  intro hmem
  simp only [List.mem_cons, CodePoint.char.injEq, List.not_mem_nil, or_false] at hmem
  have hquote : hexValue? '"' = none := rfl
  obtain rfl | rfl | rfl | rfl := hmem <;> simp [hexNat?, hquote] at h

theorem hex4?_eq_some (h : hex4? s = some (u, r)) : ∃ p, WritesUnit u p ∧ s = p ++ r := by
  unfold hex4? at h
  split at h
  next =>
    obtain ⟨n, hn, heq⟩ := Option.map_eq_some_iff.mp h
    cases heq
    exact ⟨_, ⟨hn⟩, rfl⟩
  next => cases h

theorem WritesUnit.hex4? (h : WritesUnit u p) (r : Text) : hex4? (p ++ r) = some (u, r) := by
  obtain ⟨h⟩ := h
  simp [Json.hex4?, h]

theorem unit?_eq_some (h : unit? s = some (u, r)) :
    ∃ p, WritesUnit u p ∧ s = p ++ r ∧ r ≠ [] := by
  unfold unit? at h
  split at h
  next heq =>
    cases h
    obtain ⟨p, hp, hs⟩ := hex4?_eq_some heq
    exact ⟨p, hp, hs, List.cons_ne_nil _ _⟩
  next => cases h

theorem WritesUnit.unit? (h : WritesUnit u p) (hr : r ≠ []) : unit? (p ++ r) = some (u, r) := by
  cases r with
  | nil => exact absurd rfl hr
  | cons c r => simp only [Json.unit?, h.hex4?]

theorem pair?_eq_some {n : Nat} (h : pair? u s = some (n, r)) :
    ∃ v p, High u ∧ Low v ∧ WritesUnit v p ∧ .ofNat n = joined u v ∧
      s = .char '\\' :: .char 'u' :: (p ++ r) := by
  unfold pair? at h
  split at h
  next =>
    split at h
    next v _ hv =>
      obtain ⟨p, hp, hs, -⟩ := unit?_eq_some hv
      split at h
      next hrange =>
        obtain ⟨hn, hr⟩ := Prod.mk.inj (Option.some.inj h)
        refine ⟨v, p, ⟨hrange.1, hrange.2.1⟩, hrange.2.2, hp, ?_, by rw [hs, hr]⟩
        rw [← hn, joined]
      next => cases h
    next => cases h
  next => cases h

theorem pair?_append (hu : High u) (hv : Low v) (hp : WritesUnit v p) (hr : r ≠ []) :
    ∃ n, pair? u (.char '\\' :: .char 'u' :: (p ++ r)) = some (n, r) ∧ .ofNat n = joined u v := by
  have hrange : 0xD800 ≤ u ∧ u < 0xDC00 ∧ 0xDC00 ≤ v ∧ v < 0xE000 := ⟨hu.1, hu.2, hv⟩
  exact ⟨_, by simp only [pair?, hp.unit? hr, if_pos hrange], rfl⟩

/-- The closing quote is no part of an escape, so no second half reaches beyond it. -/
theorem pair?_eq_none (h : High u → ¬ LowNext w) (r : Text) :
    pair? u (w ++ .char '"' :: r) = none := by
  cases hp : pair? u (w ++ .char '"' :: r) with
  | none => rfl
  | some x =>
    obtain ⟨v, p, hu, hv, hwrites, -, hs⟩ := pair?_eq_some (n := x.1) (r := x.2) hp
    have hcons : w ++ .char '"' :: r = (.char '\\' :: .char 'u' :: p) ++ x.2 := hs
    refine absurd ?_ (h hu)
    -- The half ends before the quote, or the quote would be one of its digits.
    obtain ⟨q, hq, hrest⟩ | ⟨q, hq, -⟩ := List.append_eq_append_iff.mp hcons
    · cases q with
      | nil => exact ⟨v, p, [], hwrites, hv, by simpa using hq.symm⟩
      | cons c q =>
        have hc : c = .char '"' := (List.cons.inj hrest).1.symm
        have hmem : .char '"' ∈ .char '\\' :: .char 'u' :: p := by rw [hq, hc]; simp
        simp only [List.mem_cons, CodePoint.char.injEq] at hmem
        obtain hmem | hmem | hmem := hmem
        · cases hmem
        · cases hmem
        · exact absurd hmem hwrites.no_quote
    · exact ⟨v, p, q, hwrites, hv, by simpa using hq⟩

/-- An escape that was read can stand before any spelling of what follows it. -/
theorem escaped_sound {c : CodePoint} (h : escaped lone start s = .ok (c, r)) :
    ∃ p, s = p ++ r ∧ ∀ t w x, r = w ++ .char '"' :: x → Spells lone t w →
      Spells lone (c :: t) (.char '\\' :: (p ++ w)) := by
  unfold escaped at h
  split at h
  next => cases h
  next r₀ =>
    split at h
    next => cases h
    next u r₁ hunit =>
      obtain ⟨p, hp, hs, hne⟩ := unit?_eq_some hunit
      split at h
      next n r₂ hpair =>
        obtain ⟨v, q, hu, hv, hq, hn, hr⟩ := pair?_eq_some hpair
        cases h
        refine ⟨.char 'u' :: (p ++ .char '\\' :: .char 'u' :: q), by simp [hs, hr], ?_⟩
        intro t w x _ ht
        have := Spells.pair hp hq hu hv ht
        simpa [hn] using this
      next hpair =>
        split at h
        next => cases h
        next hlone =>
          cases h
          refine ⟨.char 'u' :: p, by simp [hs], ?_⟩
          intro t w x hr ht
          refine Spells.unit hp ?_ ?_ ht
          · rintro hu ⟨v, q, y, hq, hv, rfl⟩
            obtain ⟨n, hn, -⟩ := pair?_append hu hv hq
              (List.append_ne_nil_of_right_ne_nil y (List.cons_ne_nil (.char '"') x))
            rw [hr] at hpair
            simp only [List.cons_append, List.append_assoc] at hpair
            rw [hn] at hpair
            cases hpair
          · simpa [Decidable.or_iff_not_imp_left] using hlone
  next e r₀ _ =>
    split at h
    next d hd =>
      cases h
      exact ⟨[e], rfl, fun t w x _ ht => Spells.short hd ht⟩
    next => cases h

/-- No escape of one letter is the letter of a unit. -/
theorem escaped_short {e : CodePoint} {d : Char} (he : shortEscape? e = some d) :
    escaped lone start (e :: r) = .ok (.char d, r) := by
  have hu : e ≠ .char 'u' := by intro heq; subst heq; cases he
  unfold escaped
  split
  next heq => cases heq
  next heq => cases heq; exact absurd rfl hu
  next heq => cases heq; rw [he]

theorem escaped_pair {q : Text} (hp : WritesUnit u p) (hq : WritesUnit v q) (hu : High u)
    (hv : Low v) (hr : r ≠ []) :
    escaped lone start (.char 'u' :: (p ++ .char '\\' :: .char 'u' :: (q ++ r))) =
      .ok (joined u v, r) := by
  obtain ⟨n, hn, heq⟩ := pair?_append hu hv hq hr
  simp only [escaped, hp.unit? (List.cons_ne_nil _ _), hn, heq]

theorem escaped_unit (hp : WritesUnit u p) (hnext : High u → ¬ LowNext w)
    (hlone : lone = true ∨ ¬ (0xD800 ≤ u ∧ u < 0xE000)) :
    escaped lone start (.char 'u' :: (p ++ (w ++ .char '"' :: r))) =
      .ok (.ofNat u, w ++ .char '"' :: r) := by
  have hne : w ++ .char '"' :: r ≠ [] := by simp
  have hkeep : (!lone && decide (0xD800 ≤ u) && decide (u < 0xE000)) = false := by
    obtain rfl | h := hlone
    · rfl
    · rw [Bool.and_assoc, ← Bool.decide_and, decide_eq_false h, Bool.and_false]
  simp only [escaped, hp.unit? hne, pair?_eq_none hnext, hkeep]
  rfl

theorem string_sound {n : Nat} (h : string lone start n s = .ok (t, r)) :
    ∃ w, s = w ++ .char '"' :: r ∧ Spells lone t w := by
  fun_induction string lone start n s generalizing t r with
  | case1 => cases h
  | case2 => cases h
  | case3 n r => cases h; exact ⟨[], rfl, .nil⟩
  | case4 => cases h
  | case5 n r₀ c r₁ he t r₂ hs ih =>
    cases h
    obtain ⟨w, hw, ht⟩ := ih hs
    obtain ⟨p, hp, hspell⟩ := escaped_sound he
    exact ⟨.char '\\' :: (p ++ w), by simp [hp, hw], hspell t w _ hw ht⟩
  | case6 => cases h
  | case7 => cases h
  | case8 n c r₀ hquote hslash hc t r₁ hs ih =>
    cases h
    obtain ⟨w, hw, ht⟩ := ih hs
    exact ⟨c :: w, by simp [hw], .plain (fun h => hquote h) (fun h => hslash h) hc ht⟩
  | case9 => cases h

theorem string_plain {n : Nat} {c : CodePoint} (hquote : c ≠ .char '"') (hslash : c ≠ .char '\\')
    (hcontrol : ¬ c.val < 32) (h : string lone start n s = .ok (t, r)) :
    string lone start (n + 1) (c :: s) = .ok (c :: t, r) := by
  rw [string.eq_5 lone start n c s hquote hslash, if_neg hcontrol, h]

theorem string_escaped {n : Nat} {c : CodePoint} (he : escaped lone start s = .ok (c, w))
    (h : string lone start n w = .ok (t, r)) :
    string lone start (n + 1) (.char '\\' :: s) = .ok (c :: t, r) := by
  simp only [string, he, h]

theorem Spells.string (h : Spells lone t w) (start r : Text) {n : Nat} (hn : w.length < n) :
    string lone start n (w ++ .char '"' :: r) = .ok (t, r) := by
  induction h generalizing n with
  | nil =>
    cases n with
    | zero => omega
    | succ n => rfl
  | plain hquote hslash hcontrol h ih =>
    cases n with
    | zero => omega
    | succ n => exact string_plain hquote hslash hcontrol (ih (by simpa using hn))
  | short he h ih =>
    cases n with
    | zero => omega
    | succ n =>
      simp only [List.length_cons] at hn
      exact string_escaped (escaped_short he) (ih (by omega))
  | @pair u v p q t s hu hv hhigh hlow h ih =>
    cases n with
    | zero => omega
    | succ n =>
      simp only [List.length_cons, List.length_append] at hn
      have hne : s ++ .char '"' :: r ≠ [] := by simp
      simpa using string_escaped (escaped_pair hu hv hhigh hlow hne) (ih (by omega))
  | unit hu hnext hlone h ih =>
    cases n with
    | zero => omega
    | succ n =>
      simp only [List.length_cons, List.length_append] at hn
      simpa using string_escaped (escaped_unit hu hnext hlone) (ih (by omega))

end Terraload.Json
