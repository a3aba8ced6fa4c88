import Terraload.Proofs.Json.Grammar
/-!
Reading a number: what is read is the longest number that the text starts with, and every number is
read when nothing behind it can continue it.
-/
namespace Terraload.Json

def NoDigit (r : Text) : Prop := ∀ c, r.head? = some c → digit? c = none

structure Ends (r : Text) : Prop where
  digit : NoDigit r
  fraction : (fraction r).1 = []
  exponent : (exponent r).1 = []

@[simp] theorem ofChars_nil : Text.ofChars [] = [] := rfl

@[simp] theorem ofChars_cons (c : Char) (cs : List Char) :
    Text.ofChars (c :: cs) = .char c :: Text.ofChars cs := rfl

theorem ofChars_append (cs ds : List Char) :
    Text.ofChars (cs ++ ds) = Text.ofChars cs ++ Text.ofChars ds := List.map_append

theorem digit?_char {c : Char} (h : decimalDigit c = true) : digit? (.char c) = some c := by
  simp [digit?, h]

theorem digit?_eq_some {c : CodePoint} {d : Char} (h : digit? c = some d) :
    c = .char d ∧ decimalDigit d = true := by
  cases c with
  | surrogate s => cases h
  | char c =>
    simp only [digit?] at h
    split at h
    next hc => cases h; exact ⟨rfl, hc⟩
    next => cases h

theorem digits_sound (s : Text) :
    s = Text.ofChars (digits s).1 ++ (digits s).2 ∧
    (∀ d ∈ (digits s).1, decimalDigit d = true) ∧ NoDigit (digits s).2 := by
  induction s with
  | nil => exact ⟨rfl, by simp [digits], by simp [digits, NoDigit]⟩
  | cons c s ih =>
    obtain ⟨hs, hall, hno⟩ := ih
    cases hc : digit? c with
    | none =>
      refine ⟨by simp [digits, hc], by simp [digits, hc], ?_⟩
      intro d hd
      simp only [digits, hc, List.head?_cons, Option.some.injEq] at hd
      exact hd ▸ hc
    | some d =>
      obtain ⟨rfl, hd⟩ := digit?_eq_some hc
      refine ⟨?_, ?_, ?_⟩
      · simpa [digits, hc] using hs
      · intro e he
        simp only [digits, hc, List.mem_cons] at he
        obtain rfl | he := he
        · exact hd
        · exact hall e he
      · simpa [digits, hc] using hno

theorem digits_of_noDigit {r : Text} (h : NoDigit r) : digits r = ([], r) := by
  cases r with
  | nil => rfl
  | cons c r => simp [digits, h c rfl]

theorem digits_append {ds : List Char} {r : Text} (hds : ∀ d ∈ ds, decimalDigit d = true)
    (hr : NoDigit r) : digits (Text.ofChars ds ++ r) = (ds, r) := by
  induction ds with
  | nil => exact digits_of_noDigit hr
  | cons d ds ih =>
    have hd := digit?_char (hds d (by simp))
    have hrest := ih fun e he => hds e (by simp [he])
    simp [digits, hd, hrest]

theorem sign_sound (s : Text) :
    s = Text.ofChars (sign s).1 ++ (sign s).2 ∧ ((sign s).1 = [] ∨ (sign s).1 = ['-']) := by
  unfold sign
  split
  · exact ⟨rfl, .inr rfl⟩
  · exact ⟨rfl, .inl rfl⟩

theorem sign_of_ne {r : Text} (h : r.head? ≠ some (.char '-')) : sign r = ([], r) := by
  unfold sign
  split
  next => exact absurd rfl h
  next => rfl

theorem whole_sound (s : Text) (h : (whole s).1 ≠ []) :
    s = Text.ofChars (whole s).1 ++ (whole s).2 ∧
    ((whole s).1 = ['0'] ∨ Digits (whole s).1 ∧ (whole s).1.head? ≠ some '0' ∧
      NoDigit (whole s).2) := by
  unfold whole at h ⊢
  split
  next => exact ⟨rfl, .inl rfl⟩
  next hzero =>
    obtain ⟨hs, hall, hno⟩ := digits_sound s
    refine ⟨hs, .inr ⟨⟨by simpa using h, hall⟩, ?_, hno⟩⟩
    intro hhead
    cases hds : (digits s).1 with
    | nil => rw [hds] at hhead; cases hhead
    | cons d ds =>
      rw [hds] at hhead hs
      cases hhead
      exact hzero _ hs

theorem whole_append {ds : List Char} {r : Text} (hds : Digits ds) (hzero : ds.head? ≠ some '0')
    (hr : NoDigit r) : whole (Text.ofChars ds ++ r) = (ds, r) := by
  cases ds with
  | nil => exact absurd rfl hds.1
  | cons d ds =>
    have hd : d ≠ '0' := fun h => hzero (by rw [h]; rfl)
    unfold whole
    split
    next heq =>
      simp only [ofChars_cons, List.cons_append, List.cons.injEq, CodePoint.char.injEq] at heq
      exact absurd heq.1 hd
    next => exact digits_append hds.2 hr

/-- A tail of a number: nothing that was read leaves the text as it is, and digits end before what
is no digit. -/
structure TailRead (s : Text) (t : List Char × Text) : Prop where
  text : s = Text.ofChars t.1 ++ t.2
  digit : t.1 ≠ [] → NoDigit t.2

theorem fraction_sound (s : Text) :
    TailRead s (fraction s) ∧
    ((fraction s).1 = [] ∨ ∃ ds, Digits ds ∧ (fraction s).1 = '.' :: ds) := by
  unfold fraction
  split
  next r =>
    obtain ⟨hs, hall, hno⟩ := digits_sound r
    split
    next => exact ⟨⟨rfl, by simp⟩, .inl rfl⟩
    next ds u hne heq =>
      rw [heq] at hs hall hno
      have hds : ds ≠ [] := fun h => hne (by rw [h])
      refine ⟨⟨?_, fun _ => hno⟩, .inr ⟨ds, ⟨hds, hall⟩, rfl⟩⟩
      simpa using hs
  next => exact ⟨⟨rfl, by simp⟩, .inl rfl⟩

theorem fraction_of_ne {r : Text} (h : r.head? ≠ some (.char '.')) : fraction r = ([], r) := by
  unfold fraction
  split
  next => exact absurd rfl h
  next => rfl

theorem fraction_append {ds : List Char} {r : Text} (hds : Digits ds) (hr : NoDigit r) :
    fraction (.char '.' :: (Text.ofChars ds ++ r)) = ('.' :: ds, r) := by
  cases ds with
  | nil => exact absurd rfl hds.1
  | cons d ds => simp only [fraction, digits_append hds.2 hr]

theorem anySign_sound (s : Text) :
    s = Text.ofChars (anySign s).1 ++ (anySign s).2 ∧
    ((anySign s).1 = [] ∨ (anySign s).1 = ['+'] ∨ (anySign s).1 = ['-']) := by
  unfold anySign
  split
  next => exact ⟨rfl, .inr (.inl rfl)⟩
  next =>
    obtain ⟨hs, hform⟩ := sign_sound s
    exact ⟨hs, hform.imp_right .inr⟩

theorem exponent_sound (s : Text) :
    TailRead s (exponent s) ∧
    ((exponent s).1 = [] ∨ ∃ m sg ds, (m = 'e' ∨ m = 'E') ∧
      (sg = [] ∨ sg = ['+'] ∨ sg = ['-']) ∧ Digits ds ∧ (exponent s).1 = m :: (sg ++ ds)) := by
  unfold exponent
  split
  next c r =>
    split
    next hc =>
      obtain ⟨hsign, hform⟩ := anySign_sound r
      obtain ⟨hs, hall, hno⟩ := digits_sound (anySign r).2
      dsimp only
      split
      next => exact ⟨⟨rfl, by simp⟩, .inl rfl⟩
      next ds u hne heq =>
        rw [heq] at hs hall hno
        have hds : ds ≠ [] := fun h => hne (by rw [h])
        refine ⟨⟨?_, fun _ => hno⟩, .inr ⟨c, _, ds, hc, hform, ⟨hds, hall⟩, rfl⟩⟩
        rw [hs] at hsign
        rw [ofChars_cons, ofChars_append, List.cons_append, List.append_assoc, ← hsign]
    next => exact ⟨⟨rfl, by simp⟩, .inl rfl⟩
  next => exact ⟨⟨rfl, by simp⟩, .inl rfl⟩

theorem exponent_of_ne {r : Text} (he : r.head? ≠ some (.char 'e'))
    (hE : r.head? ≠ some (.char 'E')) : exponent r = ([], r) := by
  unfold exponent
  split
  next c r =>
    have hc : ¬ (c = 'e' ∨ c = 'E') := by
      rintro (rfl | rfl)
      · exact he rfl
      · exact hE rfl
    rw [if_neg hc]
  next => rfl

theorem anySign_append {sg ds : List Char} (hsg : sg = [] ∨ sg = ['+'] ∨ sg = ['-'])
    (hds : Digits ds) (r : Text) :
    anySign (Text.ofChars (sg ++ ds) ++ r) = (sg, Text.ofChars ds ++ r) := by
  obtain rfl | rfl | rfl := hsg
  · cases ds with
    | nil => exact absurd rfl hds.1
    | cons d ds =>
      have hd : decimalDigit d = true := hds.2 d (by simp)
      have hplus : d ≠ '+' := ne_of_test hd rfl
      have hminus : d ≠ '-' := ne_of_test hd rfl
      have hsign : sign (Text.ofChars (d :: ds) ++ r) = ([], Text.ofChars (d :: ds) ++ r) :=
        sign_of_ne (by simpa using hminus)
      unfold anySign
      split
      next heq => simp at heq; exact absurd heq.1 hplus
      next => exact hsign
  · rfl
  · rfl

theorem exponent_append {m : Char} {sg ds : List Char} {r : Text} (hm : m = 'e' ∨ m = 'E')
    (hsg : sg = [] ∨ sg = ['+'] ∨ sg = ['-']) (hds : Digits ds) (hr : NoDigit r) :
    exponent (.char m :: (Text.ofChars (sg ++ ds) ++ r)) = (m :: (sg ++ ds), r) := by
  cases ds with
  | nil => exact absurd rfl hds.1
  | cons d ds => simp only [exponent, if_pos hm, anySign_append hsg hds, digits_append hds.2 hr]

/-- The tail that was read is none, and the text is left as it was. -/
theorem TailRead.eq_of_nil {s : Text} {t : List Char × Text} (h : TailRead s t) (ht : t.1 = []) :
    t = ([], s) := by
  obtain ⟨cs, r⟩ := t
  cases ht
  simp [h.text]

theorem number?_sound {s r : Text} {x : Except Failure Value} (h : number? s = some (x, r)) :
    ∃ n : Numeral, s = n.text ++ r ∧ n.value? = some x ∧
      (n.fraction = [] → n.exponent = [] → n.whole ≠ ['0'] → Ends r) := by
  simp only [number?] at h
  split at h
  next => cases h
  next hwhole =>
    have hne : (whole (sign s).2).1 ≠ [] := by simpa using hwhole
    obtain ⟨y, hy, heq⟩ := Option.map_eq_some_iff.mp h
    cases heq
    obtain ⟨hs, hsign⟩ := sign_sound s
    obtain ⟨hu, hform⟩ := whole_sound _ hne
    obtain ⟨hf, hfraction⟩ := fraction_sound (whole (sign s).2).2
    obtain ⟨he, hexponent⟩ := exponent_sound (fraction (whole (sign s).2).2).2
    refine ⟨⟨_, _, _, _, hsign, hform.imp_right fun h => ⟨h.1, h.2.1⟩, hfraction, hexponent⟩,
      ?_, hy, ?_⟩
    · simp only [Numeral.text, ofChars_append, List.append_assoc]
      rw [← he.text, ← hf.text, ← hu, ← hs]
    -- An integer is read up to where its digits end; behind a zero others may be left over.
    · intro hf0 he0 hzero
      dsimp only at hf0 he0 hzero
      have hf1 := hf.eq_of_nil hf0
      have he1 := he.eq_of_nil he0
      rw [hf1] at he0 he1
      rw [hf1, he1]
      exact ⟨(hform.resolve_left hzero).2.2, hf0, he0⟩

theorem noDigit_cons {c : Char} (h : decimalDigit c = false) (r : Text) :
    NoDigit (.char c :: r) := by
  intro d hd
  cases hd
  simp [digit?, h]

theorem Numeral.digits_whole (n : Numeral) : Digits n.whole := by
  obtain h | ⟨h, -⟩ := n.whole_form
  · rw [h]
    refine ⟨List.cons_ne_nil _ _, fun x hx => ?_⟩
    rw [List.mem_singleton.mp hx]
    rfl
  · exact h

theorem Numeral.whole_cons (n : Numeral) : ∃ d ds, n.whole = d :: ds ∧ decimalDigit d = true := by
  obtain ⟨hne, hall⟩ := n.digits_whole
  obtain ⟨d, ds, hw⟩ := List.exists_cons_of_ne_nil hne
  exact ⟨d, ds, hw, hall d (by simp [hw])⟩

theorem Numeral.sign_append (n : Numeral) (r : Text) :
    Json.sign (Text.ofChars n.sign ++ (Text.ofChars n.whole ++ r)) =
      (n.sign, Text.ofChars n.whole ++ r) := by
  obtain h | h := n.sign_form
  · obtain ⟨d, ds, hw, hd⟩ := n.whole_cons
    have hminus : d ≠ '-' := ne_of_test hd rfl
    rw [h]
    exact sign_of_ne (by simpa [hw] using hminus)
  · rw [h]
    rfl

theorem Numeral.exponent_append (n : Numeral) {r : Text} (hr : Ends r) :
    Json.exponent (Text.ofChars n.exponent ++ r) = (n.exponent, r) := by
  obtain h | ⟨m, sg, ds, hm, hsg, hds, h⟩ := n.exponent_form
  · rw [h]
    exact (exponent_sound r).1.eq_of_nil hr.exponent
  · rw [h]
    exact Json.exponent_append hm hsg hds hr.digit

theorem Numeral.noDigit_exponent (n : Numeral) {r : Text} (hr : Ends r) :
    NoDigit (Text.ofChars n.exponent ++ r) := by
  obtain h | ⟨m, sg, ds, hm, -, -, h⟩ := n.exponent_form
  · rw [h]
    exact hr.digit
  · rw [h]
    obtain rfl | rfl := hm <;> exact noDigit_cons (by decide) _

theorem Numeral.fraction_append (n : Numeral) {r : Text} (hr : Ends r) :
    Json.fraction (Text.ofChars n.fraction ++ (Text.ofChars n.exponent ++ r)) =
      (n.fraction, Text.ofChars n.exponent ++ r) := by
  obtain h | ⟨ds, hds, h⟩ := n.fraction_form
  · rw [h]
    obtain he | ⟨m, sg, ds, hm, -, -, he⟩ := n.exponent_form
    · rw [he]
      exact (fraction_sound r).1.eq_of_nil hr.fraction
    · rw [he]
      obtain rfl | rfl := hm <;> exact fraction_of_ne (by simp)
  · rw [h]
    exact Json.fraction_append hds (n.noDigit_exponent hr)

theorem Numeral.noDigit_fraction (n : Numeral) {r : Text} (hr : Ends r) :
    NoDigit (Text.ofChars n.fraction ++ (Text.ofChars n.exponent ++ r)) := by
  obtain h | ⟨ds, -, h⟩ := n.fraction_form
  · rw [h]
    exact n.noDigit_exponent hr
  · rw [h]
    exact noDigit_cons (by decide) _

theorem Numeral.whole_append (n : Numeral) {r : Text} (hr : NoDigit r) :
    Json.whole (Text.ofChars n.whole ++ r) = (n.whole, r) := by
  obtain h | ⟨hds, hzero⟩ := n.whole_form
  · rw [h]
    rfl
  · exact Json.whole_append hds hzero hr

theorem number?_append (n : Numeral) {r : Text} (hr : Ends r) :
    number? (n.text ++ r) = n.value?.map (·, r) := by
  have hsign := n.sign_append (Text.ofChars n.fraction ++ (Text.ofChars n.exponent ++ r))
  have hwhole := n.whole_append (n.noDigit_fraction hr)
  have hne : n.whole.isEmpty = false := by
    obtain ⟨d, ds, hw, -⟩ := n.whole_cons
    rw [hw]
    rfl
  simp only [number?, Numeral.text, ofChars_append, List.append_assoc, hsign, hwhole, hne,
    n.fraction_append hr, n.exponent_append hr]
  rfl

/-- Without a fraction and an exponent the sign and the digits are the number. -/
theorem Numeral.value?_integer {n : Numeral} (hfraction : n.fraction = [])
    (hexponent : n.exponent = []) (h : n.whole.length ≤ digitLimit) : n.value? = some (.ok
      (.integer (if n.sign.isEmpty then (natOfDigits n.whole : Int) else -natOfDigits n.whole))) := by
  simp only [Numeral.value?, numberValue?, hfraction, hexponent]
  exact if_neg (Nat.not_lt.mpr h)

def Numeral.ofInt (n : Int) : Numeral where
  sign := if n < 0 then ['-'] else []
  whole := natDigits n.natAbs
  fraction := []
  exponent := []
  sign_form := by split <;> simp
  whole_form := by
    have hdigits : Digits (natDigits n.natAbs) :=
      ⟨natDigits_ne_nil _, fun _ => natDigits_digit⟩
    obtain hzero | hpos := Nat.eq_zero_or_pos n.natAbs
    · exact .inl (by rw [hzero]; rfl)
    · exact .inr ⟨hdigits, head?_natDigits hpos⟩
  fraction_form := .inl rfl
  exponent_form := .inl rfl

theorem Numeral.sign_natCast (n : Nat) : (ofInt n).sign = [] := by
  have hn : ¬ (n : Int) < 0 := by omega
  simp only [ofInt, if_neg hn]

theorem Numeral.sign_negSucc (n : Nat) : (ofInt (.negSucc n)).sign = ['-'] := by
  simp only [ofInt, if_pos (Int.negSucc_lt_zero n)]

theorem Numeral.text_ofInt (n : Int) : (ofInt n).text = Text.ofChars (intDigits n) := by
  have htext : (ofInt n).text = Text.ofChars ((ofInt n).sign ++ natDigits n.natAbs) := by
    rw [Numeral.text]
    simp [ofInt]
  rw [htext]
  cases n with
  | ofNat n => exact congrArg (fun s => Text.ofChars (s ++ natDigits n)) (sign_natCast n)
  | negSucc n => exact congrArg (fun s => Text.ofChars (s ++ natDigits (n + 1))) (sign_negSucc n)

theorem Numeral.value?_ofInt {n : Int} (h : (natDigits n.natAbs).length ≤ digitLimit) :
    (ofInt n).value? = some (.ok (.integer n)) := by
  have hwhole : natOfDigits (ofInt n).whole = n.natAbs := natOfDigits_natDigits _
  rw [value?_integer rfl rfl h, hwhole]
  cases n with
  | ofNat n =>
    have hsign : (ofInt (.ofNat n)).sign = [] := sign_natCast n
    rw [hsign]
    rfl
  | negSucc n =>
    rw [sign_negSucc]
    rfl

end Terraload.Json
