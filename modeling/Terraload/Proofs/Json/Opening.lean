import Terraload.Json.Reader
/-!
What a JSON text opens with. Only a brace, a bracket, a minus sign or a digit can open a text that
holds an object, or one whose reading breaks off for another reason than its form.
-/
namespace Terraload.Json

def opening? (s : Text) : Option CodePoint := (skipBlanks s).head?

def opensDeep (c : CodePoint) : Bool :=
  c == .char '{' || c == .char '[' || c == .char '-' || (digit? c).isSome

def Mild {α : Type} (value : α → Value) (r : Except Failure α) : Prop :=
  (∃ a, r = .ok a ∧ ∀ ms, value a ≠ .object ms) ∨ ∃ f left, r = .error (.malformed f left)

theorem escaped_malformed {lone : Bool} {start s : Text} {e : Failure}
    (h : escaped lone start s = .error e) : ∃ f left, e = .malformed f left := by
  unfold escaped at h
  split at h
  · cases h; exact ⟨_, _, rfl⟩
  · split at h
    · cases h; exact ⟨_, _, rfl⟩
    · split at h
      · cases h
      · split at h
        · cases h; exact ⟨_, _, rfl⟩
        · cases h
  · split at h
    · cases h
    · cases h; exact ⟨_, _, rfl⟩

/-- A string is never too deep, and holds no number. -/
theorem string_malformed {lone : Bool} {start : Text} (n : Nat) {s : Text} {e : Failure}
    (h : string lone start n s = .error e) : ∃ f left, e = .malformed f left := by
  fun_induction string lone start n s generalizing e with
  | case1 => cases h; exact ⟨_, _, rfl⟩
  | case2 => cases h; exact ⟨_, _, rfl⟩
  | case3 => cases h
  | case4 n r e' he => cases h; exact escaped_malformed he
  | case5 => cases h
  | case6 n r c r' he e' hs ih => cases h; exact ih hs
  | case7 => cases h; exact ⟨_, _, rfl⟩
  | case8 => cases h
  | case9 n c r hq hb hc e' hs ih => cases h; exact ih hs

theorem wordValue?_not_object {s r : Text} {v : Value} (h : wordValue? s = some (v, r))
    (ms : Members Value) : v ≠ .object ms := by
  obtain ⟨⟨w, u⟩, hmem, hw⟩ := List.exists_of_findSome?_eq_some h
  obtain ⟨t, -, ht⟩ := Option.map_eq_some_iff.mp hw
  cases ht
  intro heq
  subst heq
  simp [words] at hmem

theorem number?_eq_none {s : Text} (h : ∀ c, s.head? = some c → opensDeep c = false) :
    number? s = none := by
  cases s with
  | nil => rfl
  | cons c r =>
    have hc := h c rfl
    simp only [opensDeep, Bool.or_eq_false_iff, beq_eq_false_iff_ne, ne_eq] at hc
    obtain ⟨⟨-, hminus⟩, hdigit⟩ := hc
    have hdigit : digit? c = none := by simpa using hdigit
    have hzero : c ≠ .char '0' := by intro heq; subst heq; cases hdigit
    have hsign : sign (c :: r) = ([], c :: r) := by
      unfold sign
      split
      next heq => exact absurd (List.cons.inj heq).1 hminus
      next => rfl
    have hwhole : whole (c :: r) = ([], c :: r) := by
      unfold whole
      split
      next heq => exact absurd (List.cons.inj heq).1 hzero
      next => simp [digits, hdigit]
    simp [number?, hsign, hwhole]

def scalar (s : Text) : Read Value :=
  match wordValue? s with
  | some (v, r) => .ok (v, r)
  | none =>
    match number? s with
    | some (.ok v, r) => .ok (v, r)
    | some (.error e, _) => .error e
    | none => fail .expectedValue s

theorem value_of_scalar {s : Text} (hquote : s.head? ≠ some (.char '"'))
    (hbrace : s.head? ≠ some (.char '{')) (hbracket : s.head? ≠ some (.char '['))
    (lone : Bool) (n depth : Nat) :
    value lone (n + 1) depth s = scalar s :=
  value.eq_7 lone depth s n (fun r h => hquote (by rw [h]; rfl)) (fun r h => hbrace (by rw [h]; rfl))
    (fun r h => hbracket (by rw [h]; rfl))

theorem value_mild {s : Text} (h : ∀ c, s.head? = some c → opensDeep c = false) (lone : Bool)
    (n depth : Nat) : Mild Prod.fst (value lone (n + 1) depth s) := by
  by_cases hquote : s.head? = some (.char '"')
  · obtain ⟨r, rfl⟩ : ∃ r, s = .char '"' :: r := by
      cases s with
      | nil => cases hquote
      | cons c r => cases hquote; exact ⟨r, rfl⟩
    rw [value]
    cases hs : string lone r n r with
    | ok x => exact .inl ⟨_, rfl, by simp⟩
    | error e =>
      obtain ⟨f, left, rfl⟩ := string_malformed n hs
      exact .inr ⟨f, left, rfl⟩
  · have hbrace : s.head? ≠ some (.char '{') := fun hs => by cases h _ hs
    have hbracket : s.head? ≠ some (.char '[') := fun hs => by cases h _ hs
    rw [value_of_scalar hquote hbrace hbracket, scalar, number?_eq_none h]
    cases hw : wordValue? s with
    | some x => exact .inl ⟨x, rfl, wordValue?_not_object hw⟩
    | none => exact .inr ⟨_, _, rfl⟩

/-- A text with any other opening is no object, and its reading does not break off. -/
theorem read_mild {s : Text} (h : ∀ c, opening? s = some c → opensDeep c = false) (rules : Rules) :
    Mild id (read rules s) := by
  have hvalue := value_mild h rules.loneSurrogates (2 * s.length + 1) rules.depth
  unfold read
  obtain ⟨⟨v, r⟩, hv, hobject⟩ | ⟨f, left, hv⟩ := hvalue
  · rw [hv]
    dsimp only
    cases skipBlanks r with
    | nil => exact .inl ⟨v, rfl, hobject⟩
    | cons c t => exact .inr ⟨_, _, rfl⟩
  · rw [hv]
    exact .inr ⟨f, left, rfl⟩

end Terraload.Json
