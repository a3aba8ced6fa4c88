import Mathlib.Data.List.Basic
import Terraload.Wildcard
/-!
Two kinds of patterns and the names they accept: an escaped name accepts this name alone, and a star
in front of a text without wildcards accepts the names that end in it.
-/
namespace Terraload.Wildcard

variable {a c : CodePoint} {p q t : Text}

def special (c : CodePoint) : Bool := c == .char '*' || c == .char '?' || c == .char '['

theorem isMagic_eq (p : Text) : isMagic p = p.any special := rfl

theorem isMagic_append (p q : Text) : isMagic (p ++ q) = (isMagic p || isMagic q) :=
  List.any_append

theorem special_iff : special c = true ↔ c = .char '*' ∨ c = .char '?' ∨ c = .char '[' := by
  simp [special, or_assoc]

def escapeOne (c : CodePoint) : Text := if special c then [.char '[', c, .char ']'] else [c]

theorem escape_cons (c : CodePoint) (p : Text) : escape (c :: p) = escapeOne c ++ escape p := by
  rw [escape, List.flatMap_cons]
  rfl

theorem escape_append (p q : Text) : escape (p ++ q) = escape p ++ escape q :=
  List.flatMap_append

theorem escape_of_plain (h : isMagic p = false) : escape p = p := by
  induction p with
  | nil => rfl
  | cons c p ih =>
    rw [isMagic_eq, List.any_cons, Bool.or_eq_false_iff] at h
    rw [escape_cons, escapeOne, if_neg (by simp [h.1]), ih h.2]
    rfl

/-- A code point that is no bracket comes into an escaped path from the path alone. -/
theorem notMem_escape (hopen : a ≠ .char '[') (hclose : a ≠ .char ']') (h : a ∉ p) :
    a ∉ escape p := by
  intro hmem
  obtain ⟨c, hc, ha⟩ := List.mem_flatMap.mp hmem
  have hne : a ≠ c := fun heq => h (heq ▸ hc)
  split at ha <;> simp [hopen, hclose, hne] at ha

theorem mem_escape (h : a ∈ p) : a ∈ escape p := by
  refine List.mem_flatMap.mpr ⟨a, h, ?_⟩
  split <;> simp

theorem isMagic_escape (p : Text) : isMagic (escape p) = isMagic p := by
  rw [Bool.eq_iff_iff, isMagic_eq, isMagic_eq, List.any_eq_true, List.any_eq_true]
  constructor
  · rintro ⟨a, ha, hspecial⟩
    by_contra hnone
    have hplain : isMagic p = false := by
      rw [isMagic_eq]
      exact List.any_eq_false.mpr fun c hc hc' => hnone ⟨c, hc, hc'⟩
    rw [escape_of_plain hplain] at ha
    exact hnone ⟨a, ha, hspecial⟩
  · rintro ⟨a, ha, hspecial⟩
    exact ⟨a, mem_escape ha, hspecial⟩

theorem escape_ne_nil (h : p ≠ []) : escape p ≠ [] := by
  obtain ⟨a, p, rfl⟩ := List.exists_cons_of_ne_nil h
  exact List.ne_nil_of_mem (mem_escape List.mem_cons_self)

def literalPart (c : CodePoint) : WildcardPart :=
  if special c then .oneOf false [.single c] else .exactly c

theorem partsOf_plain {n : Nat} (hc : special c = false) :
    partsOf (n + 1) (c :: p) = .exactly c :: partsOf n p := by
  obtain ⟨hstar, hmark, hbracket⟩ : c ≠ .char '*' ∧ c ≠ .char '?' ∧ c ≠ .char '[' := by
    simpa [special, and_assoc] using hc
  rw [partsOf, if_neg hstar, if_neg hmark, if_neg hbracket]

theorem partsOf_bracketed {n : Nat} (hc : special c = true) :
    partsOf (n + 1) (.char '[' :: c :: .char ']' :: p) =
      .oneOf false [.single c] :: partsOf n p := by
  obtain rfl | rfl | rfl := special_iff.mp hc <;> rfl

theorem partsOf_escape {n : Nat} (h : (escape p).length ≤ n) :
    partsOf n (escape p) = p.map literalPart := by
  induction p generalizing n with
  | nil => cases n <;> rfl
  | cons c p ih =>
    rw [escape_cons, escapeOne] at h ⊢
    rw [List.map_cons, literalPart]
    cases hc : special c with
    | true =>
      simp only [hc, if_true, List.cons_append, List.nil_append, List.length_cons] at h ⊢
      obtain ⟨n, rfl⟩ : ∃ m, n = m + 1 := ⟨n - 1, by omega⟩
      rw [partsOf_bracketed hc, ih (by omega)]
    | false =>
      simp only [hc, Bool.false_eq_true, if_false, List.cons_append, List.nil_append,
        List.length_cons] at h ⊢
      obtain ⟨n, rfl⟩ : ∃ m, n = m + 1 := ⟨n - 1, by omega⟩
      rw [partsOf_plain hc, ih (by omega)]

theorem matchParts_literals : matchParts (p.map literalPart) t = true ↔ t = p := by
  induction p generalizing t with
  | nil => cases t <;> simp [matchParts]
  | cons c p ih =>
    cases t with
    | nil => cases hc : special c <;> simp [literalPart, hc, matchParts]
    | cons a t =>
      cases hc : special c <;> simp [literalPart, hc, matchParts, SetItem.holds, ih]

/-- An escaped name accepts this name alone. -/
theorem accepts_escape (p t : Text) : accepts (escape p) t = true ↔ t = p := by
  rw [accepts, parts, partsOf_escape (Nat.le_refl _), matchParts_literals]

theorem partsOf_of_plain {n : Nat} (hp : isMagic p = false) (h : p.length ≤ n) :
    partsOf n p = p.map literalPart := by
  have hescape := escape_of_plain hp
  rw [← hescape] at h
  have hparts := partsOf_escape h
  rwa [hescape] at hparts

theorem anyEnd_iff {test : Text → Bool} {t : Text} :
    anyEnd test t = true ↔ ∃ r, r <:+ t ∧ test r = true := by
  induction t with
  | nil =>
    rw [anyEnd]
    constructor
    · exact fun h => ⟨[], List.suffix_rfl, h⟩
    · rintro ⟨r, hr, h⟩
      rwa [List.suffix_nil.mp hr] at h
  | cons a t ih =>
    rw [anyEnd, Bool.or_eq_true, ih]
    constructor
    · rintro (h | ⟨r, hr, h⟩)
      · exact ⟨_, List.suffix_rfl, h⟩
      · exact ⟨r, hr.trans (List.suffix_cons a t), h⟩
    · rintro ⟨r, hr, h⟩
      obtain rfl | hr := List.suffix_cons_iff.mp hr
      · exact .inl h
      · exact .inr ⟨r, hr, h⟩

/-- A star in front of a text without wildcards accepts the names that end in this text. -/
theorem accepts_star (hp : isMagic p = false) (t : Text) :
    accepts (.char '*' :: p) t = true ↔ p <:+ t := by
  have hparts : parts (.char '*' :: p) = .anyText :: p.map literalPart := by
    rw [parts, List.length_cons, partsOf, if_pos rfl, partsOf_of_plain hp (Nat.le_refl _)]
  rw [accepts, hparts, matchParts, anyEnd_iff]
  constructor
  · rintro ⟨r, hr, h⟩
    rwa [← matchParts_literals.mp h]
  · exact fun h => ⟨p, h, matchParts_literals.mpr rfl⟩

end Terraload.Wildcard
