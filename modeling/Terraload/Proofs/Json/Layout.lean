import Terraload.Proofs.Json.Number
import Terraload.Proofs.Json.String
/-!
What stands around the values of a text: blank space, the ends of numbers, and the code points that
the written form of a value starts with.
-/
namespace Terraload.Json

variable {lone : Bool} {d : Nat} {s r u w : Text} {v : Value}

theorem skipBlanks_of_head (h : ∀ c, s.head? = some c → blank c = false) : skipBlanks s = s := by
  cases s with
  | nil => rfl
  | cons c s => simp [skipBlanks, h c rfl]

theorem Blank.skip (hw : Blank w) (s : Text) : skipBlanks (w ++ s) = skipBlanks s :=
  List.dropWhile_append_of_pos hw

theorem skipBlanks_split (s : Text) : ∃ w, Blank w ∧ s = w ++ skipBlanks s :=
  ⟨s.takeWhile blank, List.all_eq_true.mp List.all_takeWhile, List.takeWhile_append_dropWhile.symm⟩

theorem skipBlanks_length (s : Text) : (skipBlanks s).length ≤ s.length :=
  (List.dropWhile_suffix blank).length_le

theorem Blank.before (hw : Blank w) {c : CodePoint} (hc : blank c = false) (s : Text) :
    skipBlanks (w ++ c :: s) = c :: s := by
  rw [hw.skip]
  exact skipBlanks_of_head fun e he => by cases he; exact hc

theorem ends_nil : Ends [] where
  digit := fun _ h => by cases h
  fraction := rfl
  exponent := rfl

def continues (c : Char) : Bool := decimalDigit c || c == '.' || c == 'e' || c == 'E'

theorem ends_cons {c : Char} (h : continues c = false) (r : Text) : Ends (.char c :: r) := by
  simp only [continues, Bool.or_eq_false_iff, beq_eq_false_iff_ne] at h
  obtain ⟨⟨⟨hdigit, hpoint⟩, he⟩, hE⟩ := h
  refine ⟨noDigit_cons hdigit r, ?_, ?_⟩
  · rw [fraction_of_ne (by simpa using hpoint)]
  · rw [exponent_of_ne (by simpa using he) (by simpa using hE)]

theorem ends_blank {c : CodePoint} (h : blank c = true) (r : Text) : Ends (c :: r) := by
  simp only [blank, Bool.or_eq_true, decide_eq_true_eq] at h
  obtain ((rfl | rfl) | rfl) | rfl := h <;> exact ends_cons rfl r

theorem Blank.ends (hw : Blank w) (hr : Ends r) : Ends (w ++ r) := by
  cases w with
  | nil => exact hr
  | cons c w => exact ends_blank (hw c (by simp)) _

theorem dropWord?_sound {w : List Char} (h : dropWord? w s = some r) :
    s = Text.ofChars w ++ r := by
  fun_induction dropWord? w s with
  | case1 => cases h; rfl
  | case2 c w s ih => rw [ih h]; rfl
  | case3 => cases h
  | case4 => cases h

theorem wordValue?_sound (h : wordValue? s = some (v, r)) :
    ∃ w, (w, v) ∈ words ∧ s = text w ++ r := by
  obtain ⟨⟨w, x⟩, hmem, hw⟩ := List.exists_of_findSome?_eq_some h
  obtain ⟨t, ht, heq⟩ := Option.map_eq_some_iff.mp hw
  cases heq
  exact ⟨w, hmem, dropWord?_sound ht⟩

theorem words_head {w : String} (h : (w, v) ∈ words) :
    ∃ c x, text w = .char c :: x ∧ c ≠ '"' ∧ c ≠ '{' ∧ c ≠ '[' := by
  simp only [words, List.mem_cons, Prod.mk.injEq, List.not_mem_nil, or_false] at h
  obtain ⟨rfl, -⟩ | ⟨rfl, -⟩ | ⟨rfl, -⟩ | ⟨rfl, -⟩ | ⟨rfl, -⟩ | ⟨rfl, -⟩ := h <;>
    exact ⟨_, _, rfl, by decide, by decide, by decide⟩

/-- No word starts with another one. -/
theorem wordValue?_append {w : String} (h : (w, v) ∈ words) (r : Text) :
    wordValue? (text w ++ r) = some (v, r) := by
  simp only [words, List.mem_cons, Prod.mk.injEq, List.not_mem_nil, or_false] at h
  obtain ⟨rfl, rfl⟩ | ⟨rfl, rfl⟩ | ⟨rfl, rfl⟩ | ⟨rfl, rfl⟩ | ⟨rfl, rfl⟩ | ⟨rfl, rfl⟩ := h <;> rfl

def startChar (c : Char) : Bool := !blank (.char c) && c != ']' && c != '}'

def Starts (s : Text) : Prop := ∃ c x, s = .char c :: x ∧ startChar c = true

theorem starts_of {c : Char} (h : startChar c = true) (x : Text) : Starts (.char c :: x) :=
  ⟨c, x, rfl, h⟩

theorem Starts.append (h : Starts s) (r : Text) : Starts (s ++ r) := by
  obtain ⟨c, x, rfl, hc⟩ := h
  exact starts_of hc (x ++ r)

theorem Starts.skip (h : Starts s) : skipBlanks s = s := by
  obtain ⟨c, x, rfl, hc⟩ := h
  simp only [startChar, Bool.and_eq_true, Bool.not_eq_true'] at hc
  exact skipBlanks_of_head fun e he => by cases he; exact hc.1.1

theorem Starts.bracket (h : Starts s) : s.head? ≠ some (.char ']') := by
  obtain ⟨c, x, rfl, hc⟩ := h
  have hne : c ≠ ']' := ne_of_test hc rfl
  simpa using hne

theorem Starts.brace (h : Starts s) : s.head? ≠ some (.char '}') := by
  obtain ⟨c, x, rfl, hc⟩ := h
  have hne : c ≠ '}' := ne_of_test hc rfl
  simpa using hne

theorem startChar_digit {c : Char} (h : decimalDigit c = true) : startChar c = true := by
  simp [startChar, blank, ne_of_test h (y := ' ') rfl, ne_of_test h (y := '\t') rfl,
    ne_of_test h (y := '\n') rfl, ne_of_test h (y := '\r') rfl, ne_of_test h (y := ']') rfl,
    ne_of_test h (y := '}') rfl]

theorem Numeral.head (n : Numeral) : ∃ d x, decimalDigit d = true ∧
    (n.text = .char d :: x ∨ n.text = .char '-' :: .char d :: x) := by
  obtain ⟨d, ds, hwhole, hd⟩ := n.whole_cons
  refine ⟨d, Text.ofChars (ds ++ n.fraction ++ n.exponent), hd, ?_⟩
  obtain h | h := n.sign_form
  · exact .inl (by simp [Numeral.text, h, hwhole])
  · exact .inr (by simp [Numeral.text, h, hwhole])

theorem Numeral.starts (n : Numeral) : Starts n.text := by
  obtain ⟨c, x, hc, hx | hx⟩ := n.head
  · exact ⟨c, x, hx, startChar_digit hc⟩
  · exact ⟨'-', _, hx, rfl⟩

theorem words_starts {w : String} (h : (w, v) ∈ words) : Starts (text w) := by
  simp only [words, List.mem_cons, Prod.mk.injEq, List.not_mem_nil, or_false] at h
  obtain ⟨rfl, -⟩ | ⟨rfl, -⟩ | ⟨rfl, -⟩ | ⟨rfl, -⟩ | ⟨rfl, -⟩ | ⟨rfl, -⟩ := h <;>
    exact starts_of rfl _

theorem Writes.starts (h : Writes lone d v u) : Starts u := by
  cases h with
  | word h => exact words_starts h
  | number k h => exact k.starts
  | text h => exact starts_of rfl _
  | noItems hw => exact starts_of rfl _
  | items hw h => exact starts_of rfl _
  | noMembers hw => exact starts_of rfl _
  | members hw h => exact starts_of rfl _

theorem WritesItems.starts {vs : List Value} (h : WritesItems lone d vs u) : Starts u := by
  cases h with
  | last h hw => exact h.starts.append _
  | more h hw hx hr => exact h.starts.append _

theorem WritesMembers.quote {ms : List (Text × Value)} (h : WritesMembers lone d ms u) :
    ∃ x, u = .char '"' :: x := by
  cases h with
  | last hk hw hx h hy => exact ⟨_, rfl⟩
  | more hk hw hx h hy hz hr => exact ⟨_, rfl⟩

theorem WritesMembers.starts {ms : List (Text × Value)} (h : WritesMembers lone d ms u) :
    Starts u := by
  obtain ⟨x, rfl⟩ := h.quote
  exact starts_of rfl x

theorem wordValue?_numeral (k : Numeral) (r : Text) : wordValue? (k.text ++ r) = none := by
  obtain ⟨d, x, hd, hx⟩ := k.head
  have hne (c : Char) (hc : decimalDigit c = false) : c ≠ d := (ne_of_test hd hc).symm
  obtain hx | hx := hx <;>
    simp [hx, wordValue?, words, dropWord?, hne 'n' rfl, hne 't' rfl, hne 'f' rfl, hne 'N' rfl,
      hne 'I' rfl, hne '-' rfl]

end Terraload.Json
