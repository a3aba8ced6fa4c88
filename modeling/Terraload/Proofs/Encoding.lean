import Terraload.Encoding
/-!
Decoding character by character: what UTF-8 gives where surrogates may stand alone and where they
may not, what the first bytes tell of the codec, and text that is encoded and read back.
-/
namespace Terraload.Encoding

/-- What is decoded starts with the first code point that the bytes write. -/
theorem decodeAll_cons {α : Type} {codec : Codec} {next : Bytes → Step α} {n position : Nat}
    {b : UInt8} {bs : Bytes} {as : List α}
    (h : decodeAll codec next (n + 1) position (b :: bs) = .ok as) :
    ∃ a r rest q, next (b :: bs) = .ok (a, r) ∧ as = a :: rest ∧
      decodeAll codec next n q r = .ok rest := by
  rw [decodeAll] at h
  · split at h
    next => cases h
    next a r hnext =>
      split at h
      next rest hrest => cases h; exact ⟨a, r, rest, _, hnext, rfl, hrest⟩
      next => cases h
  · exact List.cons_ne_nil b bs

theorem decodeAll_cons_of_next {α : Type} (codec : Codec) {next : Bytes → Step α} (n position : Nat)
    {b : UInt8} {bs r : Bytes} {a : α} (hnext : next (b :: bs) = .ok (a, r)) :
    decodeAll codec next (n + 1) position (b :: bs) =
      (decodeAll codec next n (position + ((b :: bs).length - r.length)) r).map (a :: ·) := by
  rw [decodeAll, hnext]
  · dsimp only
    cases decodeAll codec next n (position + ((b :: bs).length - r.length)) r <;> rfl
  · exact List.cons_ne_nil b bs

theorem nextCodePoint_of_nextChar {bs r : Bytes} {c : Char} (h : nextChar bs = .ok (c, r)) :
    nextCodePoint bs = .ok (.char c, r) := by
  rw [nextCodePoint, h]

theorem decodeAll_nextCodePoint (codec codec' : Codec) (n p q : Nat) {bs : Bytes} {cs : List Char}
    (h : decodeAll codec nextChar n p bs = .ok cs) :
    decodeAll codec' nextCodePoint n q bs = .ok (Text.ofChars cs) := by
  induction n generalizing p q bs cs with
  | zero =>
    cases bs <;> cases h <;> rfl
  | succ n ih =>
    cases bs with
    | nil => cases h; rfl
    | cons b bs =>
      obtain ⟨c, r, rest, p', hnext, rfl, hrest⟩ := decodeAll_cons h
      rw [decodeAll_cons_of_next codec' n q (nextCodePoint_of_nextChar hnext), ih p' _ hrest]
      rfl

/-- Bytes in UTF-8 that are read as UTF-8 give the same characters. -/
theorem decode_utf8_of_decodeUtf8 {bs : Bytes} {cs : List Char} (h : decodeUtf8 bs = .ok cs)
    (skip : Nat) : decode .utf8 skip bs = .ok (Text.ofChars cs) :=
  decodeAll_nextCodePoint .utf8 .utf8 bs.length 0 skip h

theorem decode_cons {codec : Codec} {skip : Nat} {b : UInt8} {bs : Bytes} {t : Text}
    (h : decode codec skip (b :: bs) = .ok t) :
    ∃ a r rest, codec.next (b :: bs) = .ok (a, r) ∧ t = a :: rest := by
  unfold decode at h
  rw [List.length_cons] at h
  obtain ⟨a, r, rest, q, hnext, ht, -⟩ := decodeAll_cons h
  exact ⟨a, r, rest, hnext, ht⟩

theorem nextChar_ascii {a : UInt8} (h : a.toNat < 0x80) (r : Bytes) :
    nextChar (a :: r) = .ok (Char.ofNat a.toNat, r) := by
  simp [nextChar, h]

theorem nextChar_nul (r : Bytes) : nextChar (0 :: r) = .ok ('\x00', r) := by
  simp [nextChar]

theorem nextChar_mark (r : Bytes) :
    nextChar (0xEF :: 0xBB :: 0xBF :: r) = .ok ('\uFEFF', r) := by
  have hsecond : second 0xEF 0xBB = true := by decide
  have htail : tail 0xBF = true := by decide
  have hb : low 0xBB = 59 := by decide
  have hc : low 0xBF = 63 := by decide
  simp [nextChar, hsecond, htail, hb, hc]

/-- Before a zero byte, only an ASCII character is UTF-8. -/
theorem nextChar_zero {a : UInt8} {r u : Bytes} {c : Char} (h : nextChar (a :: 0 :: r) = .ok (c, u)) :
    a.toNat < 0x80 ∧ c = Char.ofNat a.toNat ∧ u = 0 :: r := by
  by_cases ha : a.toNat < 0x80
  · rw [nextChar_ascii ha] at h
    cases h
    exact ⟨ha, rfl, rfl⟩
  · have hsecond : second a.toNat 0 = false := by
      unfold second secondRange
      repeat' split
      all_goals rfl
    simp only [nextChar, if_neg ha, hsecond] at h
    split at h <;> cases h

theorem decodeUtf8_before_nul {a : UInt8} {r : Bytes} {cs : List Char}
    (h : decodeUtf8 (a :: 0 :: r) = .ok cs) :
    a.toNat < 0x80 ∧ ∃ rest, cs = Char.ofNat a.toNat :: '\x00' :: rest := by
  obtain ⟨c, u, rest, q, hnext, hcs, hrest⟩ := decodeAll_cons h
  obtain ⟨ha, hc, hu⟩ := nextChar_zero hnext
  rw [hu, List.length_cons] at hrest
  obtain ⟨e, v, rest', q', hnext', hcs', -⟩ := decodeAll_cons hrest
  rw [nextChar_nul] at hnext'
  cases hnext'
  exact ⟨ha, rest', by rw [hcs, hc, hcs']⟩

theorem unit16_le_zero (a : UInt8) : unit16 false a 0 = a.toNat := by
  simp [unit16]

theorem next16_le_zero {a : UInt8} (ha : a.toNat < 0x80) (r : Bytes) :
    Codec.utf16le.next (a :: 0 :: r) = .ok (.char (Char.ofNat a.toNat), r) := by
  have h1 : ¬ (0xD800 ≤ a.toNat ∧ a.toNat < 0xDC00) := by omega
  have h2 : a.toNat < 0xD800 := by omega
  simp [Codec.next, next16, unit16_le_zero, h1, CodePoint.ofNat, h2]

theorem next32_le_zero {a : UInt8} (ha : a.toNat < 0x80) (r : Bytes) :
    Codec.utf32le.next (a :: 0 :: 0 :: 0 :: r) = .ok (.char (Char.ofNat a.toNat), r) := by
  have h1 : a.toNat < 0x110000 := by omega
  have h2 : a.toNat < 0xD800 := by omega
  simp [Codec.next, next32, unit16_le_zero, h1, CodePoint.ofNat, h2]

theorem zeroCodec_cases (bs : Bytes) :
    (∃ r, bs = 0 :: r) ∨ (∃ a r, bs = a :: 0 :: r ∧ zeroCodec bs = .utf16le) ∨
      (∃ a r, bs = a :: 0 :: 0 :: 0 :: r ∧ zeroCodec bs = .utf32le) ∨ zeroCodec bs = .utf8 := by
  unfold zeroCodec
  split
  next a b c d r =>
    by_cases ha : a = 0
    · exact .inl ⟨_, by rw [ha]⟩
    by_cases hb : b = 0
    · by_cases hcd : c = 0 ∧ d = 0
      · exact .inr (.inr (.inl ⟨a, r, by rw [hb, hcd.1, hcd.2], by simp [ha, hb, hcd]⟩))
      · exact .inr (.inl ⟨a, c :: d :: r, by rw [hb], by simp [ha, hb, hcd]⟩)
    · exact .inr (.inr (.inr (by simp [ha, hb])))
  next a b =>
    by_cases ha : a = 0
    · exact .inl ⟨_, by rw [ha]⟩
    by_cases hb : b = 0
    · exact .inr (.inl ⟨a, [], by rw [hb], by simp [ha, hb]⟩)
    · exact .inr (.inr (.inr (by simp [ha, hb])))
  next => exact .inr (.inr (.inr rfl))

/-- What the first bytes tell: a zero byte or a mark of UTF-16 or UTF-32, a mark of UTF-8, zero
bytes behind the first byte, or nothing, which stands for UTF-8. -/
theorem detect_cases (bs : Bytes) :
    (∃ r, bs = 0 :: r ∨ bs = 0xFE :: r ∨ bs = 0xFF :: r) ∨
    (∃ r, bs = 0xEF :: 0xBB :: 0xBF :: r) ∨
    (∃ a r, bs = a :: 0 :: r ∧ detect bs = (.utf16le, 0, bs)) ∨
    (∃ a r, bs = a :: 0 :: 0 :: 0 :: r ∧ detect bs = (.utf32le, 0, bs)) ∨
    detect bs = (.utf8, 0, bs) := by
  cases hmark : marks.find? fun m => m.1.isPrefixOf bs with
  | some m =>
    obtain ⟨mark, codec, position⟩ := m
    have hfound := List.find?_some hmark
    obtain ⟨r, hr⟩ := List.isPrefixOf_iff_prefix.mp hfound
    have hmem := List.mem_of_find?_eq_some hmark
    simp only [marks, List.mem_cons, Prod.mk.injEq, List.not_mem_nil, or_false] at hmem
    obtain ⟨rfl, -⟩ | ⟨rfl, -⟩ | ⟨rfl, -⟩ | ⟨rfl, -⟩ | ⟨rfl, -⟩ := hmem
    · exact .inl ⟨_, .inl hr.symm⟩
    · exact .inl ⟨_, .inr (.inr hr.symm)⟩
    · exact .inl ⟨_, .inr (.inl hr.symm)⟩
    · exact .inl ⟨_, .inr (.inr hr.symm)⟩
    · exact .inr (.inl ⟨_, hr.symm⟩)
  | none =>
    have hdetect : detect bs = (zeroCodec bs, 0, bs) := by rw [detect, hmark]
    rw [hdetect]
    obtain ⟨r, hr⟩ | ⟨a, r, hr, hc⟩ | ⟨a, r, hr, hc⟩ | hc := zeroCodec_cases bs
    · exact .inl ⟨r, .inl hr⟩
    · exact .inr (.inr (.inl ⟨a, r, hr, by rw [hc]⟩))
    · exact .inr (.inr (.inr (.inl ⟨a, r, hr, by rw [hc]⟩)))
    · exact .inr (.inr (.inr (.inr (by rw [hc]))))

theorem nextChar_two {a b : UInt8} (h : 0xC2 ≤ a.toNat) (h' : a.toNat < 0xE0)
    (hb : second a.toNat b = true) (r : Bytes) :
    nextChar (a :: b :: r) = .ok (Char.ofNat ((a.toNat - 0xC0) * 64 + low b), r) := by
  have h1 : ¬ a.toNat < 0x80 := by omega
  have h2 : ¬ (a.toNat < 0xC2 ∨ 0xF4 < a.toNat) := by omega
  simp [nextChar, h1, h2, hb, h']

theorem nextChar_three {a b c : UInt8} (h : 0xE0 ≤ a.toNat) (h' : a.toNat < 0xF0)
    (hb : second a.toNat b = true) (hc : tail c = true) (r : Bytes) :
    nextChar (a :: b :: c :: r) =
      .ok (Char.ofNat (((a.toNat - 0xE0) * 64 + low b) * 64 + low c), r) := by
  have h1 : ¬ a.toNat < 0x80 := by omega
  have h2 : ¬ (a.toNat < 0xC2 ∨ 0xF4 < a.toNat) := by omega
  have h3 : ¬ a.toNat < 0xE0 := by omega
  simp [nextChar, h1, h2, h3, hb, hc, h']

theorem nextChar_four {a b c d : UInt8} (h : 0xF0 ≤ a.toNat) (h' : a.toNat ≤ 0xF4)
    (hb : second a.toNat b = true) (hc : tail c = true) (hd : tail d = true) (r : Bytes) :
    nextChar (a :: b :: c :: d :: r) =
      .ok (Char.ofNat ((((a.toNat - 0xF0) * 64 + low b) * 64 + low c) * 64 + low d), r) := by
  have h1 : ¬ a.toNat < 0x80 := by omega
  have h2 : ¬ (a.toNat < 0xC2 ∨ 0xF4 < a.toNat) := by omega
  have h3 : ¬ a.toNat < 0xE0 := by omega
  have h4 : ¬ a.toNat < 0xF0 := by omega
  simp [nextChar, h1, h2, h3, h4, hb, hc, hd]

theorem toNat_ofNat {n : Nat} (h : n < 256) : (UInt8.ofNat n).toNat = n :=
  UInt8.toNat_ofNat_of_lt' h

theorem tail_ofNat (n : Nat) : tail (UInt8.ofNat (n % 0x40 + 0x80)) = true := by
  have h : n % 0x40 + 0x80 < 256 := by omega
  simp only [tail, toNat_ofNat h, Bool.and_eq_true, decide_eq_true_eq]
  omega

theorem low_ofNat (n : Nat) : low (UInt8.ofNat (n % 0x40 + 0x80)) = n % 0x40 := by
  have h : n % 0x40 + 0x80 < 256 := by omega
  unfold low
  rw [toNat_ofNat h, Nat.add_sub_cancel]

theorem second_ofNat {a n : Nat} (h : (secondRange a).1 ≤ n % 0x40 + 0x80)
    (h' : n % 0x40 + 0x80 ≤ (secondRange a).2) : second a (UInt8.ofNat (n % 0x40 + 0x80)) = true := by
  have hlt : n % 0x40 + 0x80 < 256 := by omega
  simp only [second, toNat_ofNat hlt, h, h', decide_true, Bool.and_self]

theorem secondRange_bounds (a x : Nat) (h1 : a = 0xE0 → 0x20 ≤ x) (h2 : a = 0xED → x < 0x20)
    (h3 : a = 0xF0 → 0x10 ≤ x) (h4 : a = 0xF4 → x < 0x10) (hx : x < 0x40) :
    (secondRange a).1 ≤ x + 0x80 ∧ x + 0x80 ≤ (secondRange a).2 := by
  unfold secondRange
  repeat' split
  all_goals dsimp only; omega

theorem nextChar_encode (c : Char) (r : Bytes) :
    nextChar (String.utf8EncodeChar c ++ r) = .ok (c, r) := by
  have hvalid : c.toNat < 0xD800 ∨ 0xDFFF < c.toNat ∧ c.toNat < 0x110000 := c.valid
  have hchar (n : Nat) (h : n = c.toNat) : Char.ofNat n = c := by rw [h, Char.ofNat_toNat]
  have hval : c.val.toNat = c.toNat := rfl
  simp only [String.utf8EncodeChar, hval]
  -- One case for each number of bytes. That `c` is no surrogate, and that a shorter form did not
  -- suffice, are the bounds of the second byte.
  split
  next h1 =>
    have ha : (UInt8.ofNat c.toNat).toNat = c.toNat := toNat_ofNat (by omega)
    rw [List.singleton_append, nextChar_ascii (by omega), ha, Char.ofNat_toNat]
  next h1 =>
    split
    next h2 =>
      have ha : (UInt8.ofNat (c.toNat / 64 % 0x20 + 0xc0)).toNat = c.toNat / 64 + 0xc0 := by
        rw [toNat_ofNat (by omega)]
        omega
      have hb := secondRange_bounds (c.toNat / 64 + 0xc0) (c.toNat % 0x40) (by omega) (by omega)
        (by omega) (by omega) (by omega)
      rw [List.cons_append, List.singleton_append, nextChar_two (by omega) (by omega)
        (by rw [ha]; exact second_ofNat hb.1 hb.2), ha, low_ofNat, hchar _ (by omega)]
    next h2 =>
      split
      next h3 =>
        have ha : (UInt8.ofNat (c.toNat / 4096 % 0x10 + 0xe0)).toNat = c.toNat / 4096 + 0xe0 := by
          rw [toNat_ofNat (by omega)]
          omega
        have hb := secondRange_bounds (c.toNat / 4096 + 0xe0) (c.toNat / 64 % 0x40) (by omega)
          (by omega) (by omega) (by omega) (by omega)
        simp only [List.cons_append, List.nil_append]
        rw [nextChar_three (by omega) (by omega) (by rw [ha]; exact second_ofNat hb.1 hb.2)
          (tail_ofNat _), ha, low_ofNat, low_ofNat, hchar _ (by omega)]
      next h3 =>
        have ha : (UInt8.ofNat (c.toNat / 262144 % 0x08 + 0xf0)).toNat =
            c.toNat / 262144 + 0xf0 := by
          rw [toNat_ofNat (by omega)]
          omega
        have hb := secondRange_bounds (c.toNat / 262144 + 0xf0) (c.toNat / 4096 % 0x40) (by omega)
          (by omega) (by omega) (by omega) (by omega)
        simp only [List.cons_append, List.nil_append]
        rw [nextChar_four (by omega) (by omega) (by rw [ha]; exact second_ofNat hb.1 hb.2)
          (tail_ofNat _) (tail_ofNat _), ha, low_ofNat, low_ofNat, low_ofNat, hchar _ (by omega)]

theorem encode_ofChars_cons (c : Char) (cs : List Char) :
    encode (Text.ofChars (c :: cs)) = String.utf8EncodeChar c ++ encode (Text.ofChars cs) := rfl

theorem utf8EncodeChar_ne_nil (c : Char) : String.utf8EncodeChar c ≠ [] := by
  intro h
  have hlength := String.length_utf8EncodeChar c
  rw [h] at hlength
  have := c.utf8Size_pos
  simp at hlength
  omega

theorem decodeAll_encode {codec : Codec} {position : Nat} (cs : List Char) (n : Nat)
    (hn : (encode (Text.ofChars cs)).length ≤ n) :
    decodeAll codec nextChar n position (encode (Text.ofChars cs)) = .ok cs := by
  induction cs generalizing n position with
  | nil => cases n <;> rfl
  | cons c cs ih =>
    rw [encode_ofChars_cons] at hn ⊢
    obtain ⟨b, bs, hb⟩ := List.exists_cons_of_ne_nil (utf8EncodeChar_ne_nil c)
    have hnext := nextChar_encode c (encode (Text.ofChars cs))
    rw [hb, List.cons_append] at hn hnext ⊢
    cases n with
    | zero => simp at hn
    | succ n =>
      simp only [List.length_cons, List.length_append] at hn
      rw [decodeAll_cons_of_next codec n position hnext, ih n (by omega)]
      rfl

theorem decodeUtf8_encode (cs : List Char) : decodeUtf8 (encode (Text.ofChars cs)) = .ok cs :=
  decodeAll_encode cs _ (Nat.le_refl _)

theorem encodeCodePoint_ne_nil (c : CodePoint) : encodeCodePoint c ≠ [] := by
  unfold encodeCodePoint
  split
  · exact utf8EncodeChar_ne_nil _
  · dsimp only
    split <;> exact List.cons_ne_nil _ _

/-- Every code point takes a byte at least. -/
theorem length_le_encode (t : Text) : t.length ≤ (encode t).length := by
  induction t with
  | nil => exact Nat.zero_le _
  | cons c t ih =>
    have hone := List.length_pos_iff.mpr (encodeCodePoint_ne_nil c)
    rw [encode, List.flatMap_cons, List.length_append, List.length_cons]
    rw [encode] at ih
    omega

/-- Only NUL is written with a zero byte. -/
theorem utf8EncodeChar_head {c : Char} (hc : c ≠ '\x00') :
    ∃ b bs, String.utf8EncodeChar c = b :: bs ∧ b ≠ 0 := by
  obtain ⟨b, bs, hb⟩ := List.exists_cons_of_ne_nil (utf8EncodeChar_ne_nil c)
  refine ⟨b, bs, hb, ?_⟩
  intro heq
  subst heq
  have hnext := nextChar_encode c []
  rw [hb, List.cons_append, nextChar_nul] at hnext
  exact hc (Prod.mk.inj (Except.ok.inj hnext)).1.symm

theorem utf8EncodeChar_ascii {c : Char} (hc : c.toNat < 0x80) :
    String.utf8EncodeChar c = [UInt8.ofNat c.toNat] := by
  have h : c.val.toNat ≤ 0x7f := by
    have hval : c.val.toNat = c.toNat := rfl
    omega
  simp only [String.utf8EncodeChar, if_pos h]
  rfl

/-- Text that starts with an ASCII character, and has no NUL among its first two characters, is
taken for UTF-8. -/
theorem decodeDetected_encode {c d : Char} (hc : c.toNat < 0x80) (hc0 : c ≠ '\x00')
    (hd0 : d ≠ '\x00') (cs : List Char) :
    decodeDetected (encode (Text.ofChars (c :: d :: cs))) = .ok (Text.ofChars (c :: d :: cs)) := by
  have hdecode := decode_utf8_of_decodeUtf8 (decodeUtf8_encode (c :: d :: cs)) 0
  have hbyte : (UInt8.ofNat c.toNat).toNat = c.toNat := toNat_ofNat (by omega)
  have hne (n : UInt8) (hn : 0x80 ≤ n.toNat) : UInt8.ofNat c.toNat ≠ n := by
    intro heq
    subst heq
    omega
  have hzero : UInt8.ofNat c.toNat ≠ 0 := by
    intro h
    rw [h] at hbyte
    exact hc0 (Char.toNat_inj.mp hbyte.symm)
  obtain ⟨b, bs, hb, hb0⟩ := utf8EncodeChar_head hd0
  rw [encode_ofChars_cons, encode_ofChars_cons, utf8EncodeChar_ascii hc, hb,
    List.singleton_append, List.cons_append] at hdecode ⊢
  have hutf8 := detect_cases (UInt8.ofNat c.toNat :: b :: (bs ++ encode (Text.ofChars cs)))
  obtain ⟨r, h | h | h⟩ | ⟨r, h⟩ | ⟨a, r, h, -⟩ | ⟨a, r, h, -⟩ | h := hutf8
  · exact absurd (List.cons.inj h).1 hzero
  · exact absurd (List.cons.inj h).1 (hne _ (by decide))
  · exact absurd (List.cons.inj h).1 (hne _ (by decide))
  · exact absurd (List.cons.inj h).1 (hne _ (by decide))
  · exact absurd (List.cons.inj (List.cons.inj h).2).1 hb0
  · exact absurd (List.cons.inj (List.cons.inj h).2).1 hb0
  · rw [decodeDetected, h]
    exact hdecode

end Terraload.Encoding
