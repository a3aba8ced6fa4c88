import Terraload.Proofs.Json.Surrogates
import Terraload.Proofs.Members
/-!
The members of an object that was read stand in its text themselves. So their texts have no
surrogates that the text has not, and their integers are not longer than a number may be.
-/
namespace Terraload.Json

variable {lone : Bool} {d : Nat} {x : Surrogate} {s t u : Text} {v : Value} {n : Int}

theorem WritesMembers.writes_of_mem {ms : List (Text × Value)} (h : WritesMembers lone d ms u)
    {m : Text × Value} (hm : m ∈ ms) : ∃ p, Writes lone d m.2 p ∧ p ⊆ u := by
  induction ms generalizing u with
  | nil => cases h
  | cons m' ms ih =>
    cases h with
    | @last _ k q w a p y v hk hw hx h hy =>
      cases List.mem_singleton.mp hm
      exact ⟨p, h, fun c hc => by simp [hc]⟩
    | @more _ k q w a p y z r v ms hk hw hx h hy hz hr =>
      obtain rfl | hm := List.mem_cons.mp hm
      · exact ⟨p, h, fun c hc => by simp [hc]⟩
      · obtain ⟨p', hp', hsub⟩ := ih hr hm
        exact ⟨p', hp', fun c hc => by simp [hsub hc]⟩

theorem Writes.writes_of_mem {ms : Members Value} (h : Writes lone d (.object ms) u)
    {m : Text × Value} (hm : m ∈ ms) : ∃ p, Writes lone (d - 1) m.2 p ∧ p ⊆ u := by
  generalize hv : Value.object ms = v at h
  cases h with
  | word hword =>
    subst hv
    simp [words] at hword
  | number n hn => obtain ⟨i, rfl⟩ | ⟨y, rfl⟩ := n.value?_number hn <;> cases hv
  | noMembers hw =>
    cases hv
    cases hm
  | members hw hmembers =>
    cases hv
    obtain ⟨p, hp, hsub⟩ :=
      hmembers.writes_of_mem ((Members.mem_putAll hm).resolve_left List.not_mem_nil)
    exact ⟨p, hp, fun c hc => by simp [hsub hc]⟩
  | _ => cases hv

/-- What a text is read as, it writes. -/
theorem read_sound {rules : Rules} (h : read rules s = .ok v) :
    ∃ w u r, s = w ++ (u ++ r) ∧ Writes rules.loneSurrogates rules.depth v u := by
  unfold read at h
  split at h
  · cases h
  next hvalue =>
    obtain ⟨w, -, hw⟩ := skipBlanks_split s
    obtain ⟨u, hu, hwrites⟩ := (sound _ _).value hvalue
    rw [hu] at hw
    split at h
    · cases h
      exact ⟨w, u, _, hw, hwrites⟩
    · cases h

theorem read_member {rules : Rules} {ms : Members Value} (h : read rules s = .ok (.object ms))
    {m : Text × Value} (hm : m ∈ ms) :
    ∃ p, Writes rules.loneSurrogates (rules.depth - 1) m.2 p ∧ p ⊆ s := by
  obtain ⟨w, u, r, rfl, hwrites⟩ := read_sound h
  obtain ⟨p, hp, hsub⟩ := hwrites.writes_of_mem hm
  exact ⟨p, hp, fun c hc => by simp [hsub hc]⟩

/-- The texts that are members of an object. -/
theorem member_no_surrogate {ms : Members Value} (h : read .strict s = .ok (.object ms))
    (hs : .surrogate x ∉ s) {k : Text} (hm : (k, .text t) ∈ ms) : .surrogate x ∉ t := by
  obtain ⟨p, hp, hsub⟩ := read_member h hm
  exact hp.text_no_surrogate fun hmem => hs (hsub hmem)

theorem Numeral.natAbs_of_value? {k : Numeral} (h : k.value? = some (.ok (.integer n))) :
    k.whole.length ≤ digitLimit ∧ n.natAbs = natOfDigits k.whole := by
  unfold Numeral.value? numberValue? at h
  dsimp only at h
  split at h
  · split at h
    · cases h
    next hlimit =>
      cases h
      refine ⟨Nat.not_lt.mp hlimit, ?_⟩
      split
      · rw [Int.natAbs_natCast]
      · rw [Int.natAbs_neg, Int.natAbs_natCast]
  · obtain ⟨y, -, hy⟩ := Option.map_eq_some_iff.mp h
    cases hy

theorem Writes.integer_digits (h : Writes lone d (.integer n) u) :
    (natDigits n.natAbs).length ≤ digitLimit := by
  generalize hv : Value.integer n = v at h
  cases h with
  | word hword =>
    subst hv
    simp [words] at hword
  | number k hk =>
    rw [← hv] at hk
    obtain ⟨hlength, hn⟩ := Numeral.natAbs_of_value? hk
    rw [hn]
    exact natDigits_natOfDigits_length k.digits_whole.2 (by decide) hlength
  | _ => cases hv

/-- The integers that are members of an object. -/
theorem member_digits {rules : Rules} {ms : Members Value} (h : read rules s = .ok (.object ms))
    {k : Text} (hm : (k, .integer n) ∈ ms) : (natDigits n.natAbs).length ≤ digitLimit := by
  obtain ⟨p, hp, -⟩ := read_member h hm
  exact hp.integer_digits

end Terraload.Json
