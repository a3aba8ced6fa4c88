import Terraload.Hcl.Reader
import Terraload.Proofs.Number.Digits
/-!
What a configuration text opens with: behind blanks and newlines stands a name or a comment, or
nothing at all.
-/
namespace Terraload.Hcl

open Reader

def layoutChar (c : Char) : Bool := blank c || c == '\n'

def opening? (s : List Char) : Option Char := (s.dropWhile layoutChar).head?

/-- The characters that open an entry of a body: those that start a name, and those that start a
comment. -/
def opensEntry (c : Char) : Bool := nameStart c || c == '#' || c == '/'

theorem opening?_cons_of_layout {c : Char} (h : layoutChar c = true) (s : List Char) :
    opening? (c :: s) = opening? s := by
  simp [opening?, h]

theorem opening?_cons_of_not {c : Char} (h : layoutChar c = false) (s : List Char) :
    opening? (c :: s) = some c := by
  simp [opening?, h]

/-- Layout that is skipped does not change the opening. -/
theorem opening?_dropWhile {p : Char → Bool} (hp : ∀ c, p c = true → layoutChar c = true)
    (s : List Char) : opening? (s.dropWhile p) = opening? s := by
  induction s with
  | nil => rfl
  | cons c s ih =>
    by_cases hc : p c = true
    · rw [List.dropWhile_cons_of_pos hc, ih, opening?_cons_of_layout (hp c hc)]
    · rw [List.dropWhile_cons_of_neg hc]

theorem opening?_skipBlanks (s : List Char) : opening? (skipBlanks s) = opening? s :=
  opening?_dropWhile (fun c hc => by simp [layoutChar, hc]) s

theorem layoutChar_of_opening? {s : List Char} {c : Char} (h : opening? s = some c) :
    layoutChar c = false := by
  have hhead := List.head?_dropWhile_not layoutChar s
  rw [show (s.dropWhile layoutChar).head? = some c from h] at hhead
  exact hhead

theorem opening?_append {s : List Char} {c : Char} (h : opening? s = some c) (t : List Char) :
    opening? (s ++ t) = some c := by
  induction s with
  | nil => cases h
  | cons d s ih =>
    cases hd : layoutChar d with
    | true =>
      rw [opening?_cons_of_layout hd] at h
      rw [List.cons_append, opening?_cons_of_layout hd]
      exact ih h
    | false =>
      rw [opening?_cons_of_not hd] at h
      rwa [List.cons_append, opening?_cons_of_not hd]

/-- Behind the blanks stands a newline, or the opening itself. -/
theorem skipBlanks_of_opening? {s : List Char} {c : Char} (h : opening? s = some c) :
    ∃ r, skipBlanks s = '\n' :: r ∨ skipBlanks s = c :: r := by
  have hs := opening?_skipBlanks s
  cases hb : skipBlanks s with
  | nil =>
    rw [hb, h] at hs
    cases hs
  | cons d r =>
    refine ⟨r, ?_⟩
    have hd : blank d = false := by
      have hhead := List.head?_dropWhile_not blank s
      rw [show s.dropWhile blank = d :: r from hb] at hhead
      exact hhead
    by_cases hn : d = '\n'
    · exact .inl (by rw [hn])
    · have hl : layoutChar d = false := by simp [layoutChar, hd, hn]
      rw [hb, h, opening?_cons_of_not hl] at hs
      cases hs
      exact .inr rfl

theorem gap?_newline (r : List Char) :
    gap? ('\n' :: r) = some ('\n' :: r.takeWhile fun c => c == ' ' || c == '\t',
      r.dropWhile fun c => c == ' ' || c == '\t') := rfl

theorem gap?_eq_none {c : Char} (hn : c ≠ '\n') (hhash : c ≠ '#') (hslash : c ≠ '/')
    (r : List Char) : gap? (c :: r) = none := by
  simp [gap?, hn, hhash, hslash]

def solid (c : Char) : Bool := !layoutChar c && c != '#' && c != '/'

theorem solid_of_test {p : Char → Bool} {c : Char} (hc : p c = true)
    (hp : [' ', '\t', '\r', '\n', '#', '/'].any p = false) : solid c = true := by
  simp only [List.any_cons, List.any_nil, Bool.or_false, Bool.or_eq_false_iff] at hp
  obtain ⟨h1, h2, h3, h4, h5, h6⟩ := hp
  simp [solid, layoutChar, blank, ne_of_test hc h1, ne_of_test hc h2, ne_of_test hc h3,
    ne_of_test hc h4, ne_of_test hc h5, ne_of_test hc h6]

theorem skipBlanks_of_solid {c : Char} (h : solid c = true) (s : List Char) :
    skipBlanks (c :: s) = c :: s := by
  have hblank : blank c = false := by
    simp only [solid, layoutChar, Bool.and_eq_true, Bool.not_eq_true', Bool.or_eq_false_iff] at h
    exact h.1.1.1
  simp [skipBlanks, hblank]

theorem gap?_of_solid {c : Char} (h : solid c = true) (s : List Char) : gap? (c :: s) = none :=
  gap?_eq_none (ne_of_test h rfl) (ne_of_test h rfl) (ne_of_test h rfl) s

/-- Taking gaps does not get past an opening that is no comment. -/
theorem opening?_gapRun {c : Char} (hc : opensEntry c = false) (n : Nat) (s : List Char)
    (h : opening? s = some c) : opening? (gapRun n s).2 = some c := by
  induction n generalizing s with
  | zero => exact h
  | succ n ih =>
    obtain ⟨r, hr | hr⟩ := skipBlanks_of_opening? h
    -- A newline is taken with the blanks behind it, none of which is the opening.
    · have hinner : opening? (r.dropWhile fun c => c == ' ' || c == '\t') = some c := by
        have hs := opening?_skipBlanks s
        rw [hr, opening?_cons_of_layout rfl] at hs
        rw [opening?_dropWhile _ r, hs, h]
        intro d hd
        simp only [Bool.or_eq_true, beq_iff_eq] at hd
        obtain rfl | rfl := hd <;> rfl
      rw [gapRun, hr, gap?_newline]
      dsimp only
      split
      · exact h
      · exact ih _ hinner
    · have hn : c ≠ '\n' := by
        intro heq
        subst heq
        cases layoutChar_of_opening? h
      have hhash : c ≠ '#' := by intro heq; subst heq; cases hc
      have hslash : c ≠ '/' := by intro heq; subst heq; cases hc
      rw [gapRun, hr, gap?_eq_none hn hhash hslash]
      exact h

theorem opening?_gap {c : Char} (hc : opensEntry c = false) {cur cur' : Cursor} {g : Gap}
    (hgap : gap cur = some (g, cur')) (h : opening? cur.rest = some c) :
    opening? cur'.rest = some c := by
  have hrun := opening?_gapRun hc (cur.rest.length + 1) cur.rest h
  unfold gap at hgap
  split at hgap
  next => cases hgap; exact h
  next heq => cases hgap; rwa [heq] at hrun

theorem name?_eq_none {c : Char} (hc : nameStart c = false) (r : List Char) :
    name? (c :: r) = none := by
  simp [name?, hc]

/-- A body ends before an opening that no entry has. -/
theorem opening?_entries {c : Char} (hc : opensEntry c = false) (n : Nat) {cur cur' : Cursor}
    {body : Body} (hread : entries n cur = some (body, cur')) (h : opening? cur.rest = some c) :
    opening? cur'.rest = some c := by
  induction n generalizing cur body with
  | zero => cases hread
  | succ n ih =>
    rw [entries] at hread
    obtain ⟨⟨g, cur₁⟩, hgap, hread⟩ := Option.bind_eq_some_iff.mp hread
    have h₁ := opening?_gap hc hgap h
    dsimp only at hread
    split at hread
    · obtain ⟨⟨es, cur₂⟩, hes, hread⟩ := Option.bind_eq_some_iff.mp hread
      cases hread
      exact ih hes h₁
    · have hname : name? (skipBlanks cur₁.rest) = none := by
        obtain ⟨r, hr | hr⟩ := skipBlanks_of_opening? h₁
        · rw [hr]; rfl
        · rw [hr]
          exact name?_eq_none (by revert hc; simp [opensEntry]; exact fun h _ _ => h) r
      have hword : word? name? cur₁ = some (none, cur₁) := by simp [word?, hname]
      obtain ⟨⟨w, cur₂⟩, hw, hread⟩ := Option.bind_eq_some_iff.mp hread
      rw [hword] at hw
      cases hw
      cases hread
      exact h₁

/-- A text with any other opening holds no body. -/
theorem Body.opensEntry_of_read? {s : List Char} {body : Body} (hread : Body.read? s = some body)
    {c : Char} (h : opening? s = some c) : opensEntry c = true := by
  cases hc : opensEntry c with
  | true => rfl
  | false =>
    simp only [Body.read?] at hread
    split at hread
    next body' cur heq =>
      have hend := opening?_entries hc _ heq (opening?_append h ['\n'])
      obtain ⟨r, hr | hr⟩ := skipBlanks_of_opening? hend <;> simp [hr] at hread
    next => cases hread

end Terraload.Hcl
