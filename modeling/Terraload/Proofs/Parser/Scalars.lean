import Terraload.Proofs.Hcl.Scalar
import Terraload.Proofs.Number.Hexadecimal
import Terraload.Proofs.Parser.Agreement
/-!
Scalars that both syntaxes have: integers, truth values, the null value and strings. The two parsers
read them as the same value, unless a string has an escape that the native syntax does not know and
leaves as it is.
-/
namespace Terraload.Parser

variable {k s v : List Char} {t u : Text} {a b c d x : Char} {n : Nat}

def surrogate (n : Nat) : Bool := 0xD800 ≤ n && n < 0xE000

theorem surrogate_of_bounds (h : 0xD800 ≤ n) (h' : n < 0xE000) : surrogate n = true := by
  simp [surrogate, h, h']

/-- Whether a string has an escape that only JSON resolves: that of a slash, of a backspace, of a form
feed or of a surrogate. -/
def foreignEscape : List Char → Bool
  | '\\' :: 'u' :: a :: b :: c :: d :: r => (hexNat? [a, b, c, d]).any surrogate || foreignEscape r
  | '\\' :: c :: r => c == '/' || c == 'b' || c == 'f' || foreignEscape r
  | _ :: r => foreignEscape r
  | [] => false

theorem foreignEscape_cons (h : x ≠ '\\') (s : List Char) :
    foreignEscape (x :: s) = foreignEscape s := by
  simp [foreignEscape, h]

theorem foreignEscape_of_notMem (h : '\\' ∉ s) : foreignEscape s = false := by
  induction s with
  | nil => rfl
  | cons x s ih =>
    rw [List.mem_cons, not_or] at h
    rw [foreignEscape_cons (Ne.symm h.1), ih h.2]

/-- The native reading of a string is that of JSON, or it is longer because of what it leaves as it
is. A quote stands behind the string. -/
def Compared (t : Text) (s : List Char) : Prop :=
  (foreignEscape (s ++ ['"']) = false ∧ Text.ofChars (Hcl.unescape s) = t) ∨
    (foreignEscape (s ++ ['"']) = true ∧ t.length < (Hcl.unescape s).length)

theorem Compared.length_le (h : Compared t s) : t.length ≤ (Hcl.unescape s).length := by
  obtain ⟨-, rfl⟩ | ⟨-, hlt⟩ := h
  · exact Nat.le_of_eq (List.length_map _)
  · exact Nat.le_of_lt hlt

/-- Both read the same character. -/
theorem Compared.same (h : Compared t s) {s' : List Char}
    (hforeign : foreignEscape (s' ++ ['"']) = foreignEscape (s ++ ['"']))
    (hread : Hcl.unescape s' = x :: Hcl.unescape s) : Compared (.char x :: t) s' := by
  unfold Compared
  rw [hforeign, hread]
  obtain ⟨hs, rfl⟩ | ⟨hs, hlt⟩ := h
  · exact .inl ⟨hs, rfl⟩
  · exact .inr ⟨hs, Nat.succ_lt_succ hlt⟩

/-- What is left as it is, is longer than what JSON makes of it. -/
theorem Compared.left (h : Compared t s) {s' g : List Char} {e : CodePoint}
    (hforeign : foreignEscape (s' ++ ['"']) = true) (hread : Hcl.unescape s' = g ++ Hcl.unescape s)
    (hg : 1 < g.length) : Compared (e :: t) s' := by
  have hle := h.length_le
  refine .inr ⟨hforeign, ?_⟩
  rw [hread, List.length_append, List.length_cons]
  omega

theorem unescape_surrogate (hu : hexNat? [a, b, c, d] = some n) (hn : surrogate n = true)
    (r : List Char) : Hcl.unescape ('\\' :: 'u' :: a :: b :: c :: d :: r) =
      '\\' :: 'u' :: a :: b :: c :: d :: Hcl.unescape r := by
  have hscalar : Hcl.scalar? n = none := by
    simp only [surrogate, Bool.and_eq_true, decide_eq_true_eq] at hn
    simp only [Hcl.scalar?, Nat.isValidChar]
    rw [if_neg (by omega)]
  have hslash : ∀ x ∈ [a, b, c, d], x ≠ '\\' := fun x hx =>
    ne_of_test ((hexNat?_four hu).2 x hx) rfl
  simp only [List.forall_mem_cons] at hslash
  obtain ⟨ha, hb, hc, hd, -⟩ := hslash
  simp [Hcl.unescape, hu, hscalar, ha, hb, hc, hd]

theorem unescape_unit (hu : hexNat? [a, b, c, d] = some n) (hn : surrogate n = false)
    (r : List Char) : Hcl.unescape ('\\' :: 'u' :: a :: b :: c :: d :: r) =
      Char.ofNat n :: Hcl.unescape r := by
  obtain ⟨hlt, -⟩ := hexNat?_four hu
  have hscalar : Hcl.scalar? n = some (Char.ofNat n) := by
    simp only [surrogate, Bool.and_eq_false_iff, decide_eq_false_iff_not] at hn
    simp only [Hcl.scalar?, Nat.isValidChar]
    rw [if_pos (by omega)]
  simp [Hcl.unescape, hu, hscalar]

theorem ofNat_of_not_surrogate (hlt : n < 0x10000) (hn : surrogate n = false) :
    CodePoint.ofNat n = .char (Char.ofNat n) := by
  simp only [surrogate, Bool.and_eq_false_iff, decide_eq_false_iff_not] at hn
  unfold CodePoint.ofNat
  split
  · rfl
  split
  · omega
  · rw [if_pos (by omega)]

theorem cons_eq_ofChars {e : CodePoint} (h : e :: u = Text.ofChars s) :
    ∃ x r, s = x :: r ∧ e = .char x ∧ u = Text.ofChars r := by
  obtain ⟨x, r, rfl, hx, hr⟩ := List.map_eq_cons_iff.mp h.symm
  exact ⟨x, r, rfl, hx.symm, hr.symm⟩

/-- The characters behind a unit that is written. -/
theorem unit_eq_ofChars {p : Text} (hp : Json.WritesUnit n p) (h : p ++ u = Text.ofChars s) :
    ∃ a b c d r, hexNat? [a, b, c, d] = some n ∧ s = a :: b :: c :: d :: r ∧ u = Text.ofChars r := by
  obtain @⟨a, b, c, d, n, hn⟩ := hp
  obtain ⟨_, r₁, rfl, ha, h₁⟩ := cons_eq_ofChars h
  obtain ⟨_, r₂, rfl, hb, h₂⟩ := cons_eq_ofChars h₁
  obtain ⟨_, r₃, rfl, hc, h₃⟩ := cons_eq_ofChars h₂
  obtain ⟨_, r₄, rfl, hd, h₄⟩ := cons_eq_ofChars h₃
  cases ha
  cases hb
  cases hc
  cases hd
  exact ⟨a, b, c, d, r₄, hn, rfl, h₄⟩

/-- The characters behind an escaped unit. -/
theorem escape_eq_ofChars {p : Text} (hp : Json.WritesUnit n p)
    (h : .char '\\' :: .char 'u' :: (p ++ u) = Text.ofChars s) :
    ∃ a b c d r, hexNat? [a, b, c, d] = some n ∧ s = '\\' :: 'u' :: a :: b :: c :: d :: r ∧
      u = Text.ofChars r := by
  obtain ⟨_, r₁, rfl, hslash, h₁⟩ := cons_eq_ofChars h
  obtain ⟨_, r₂, rfl, hmark, h₂⟩ := cons_eq_ofChars h₁
  obtain ⟨a, b, c, d, r, hn, rfl, hr⟩ := unit_eq_ofChars hp h₂
  cases hslash
  cases hmark
  exact ⟨a, b, c, d, r, hn, rfl, hr⟩

theorem Compared.unit (h : Compared t s) (hn : hexNat? [a, b, c, d] = some n) :
    Compared (.ofNat n :: t) ('\\' :: 'u' :: a :: b :: c :: d :: s) := by
  have hforeign : foreignEscape ('\\' :: 'u' :: a :: b :: c :: d :: s ++ ['"']) =
      (surrogate n || foreignEscape (s ++ ['"'])) := by
    simp [foreignEscape, hn]
  cases hsurrogate : surrogate n with
  | true =>
    exact h.left (by rw [hforeign, hsurrogate, Bool.true_or])
      (g := ['\\', 'u', a, b, c, d]) (unescape_surrogate hn hsurrogate s) (by simp)
  | false =>
    rw [ofNat_of_not_surrogate (hexNat?_four hn).1 hsurrogate]
    exact h.same (by rw [hforeign, hsurrogate, Bool.false_or]) (unescape_unit hn hsurrogate s)

theorem Compared.short {e : Char} (h : Compared t s) (he : Json.shortEscape? (.char e) = some d) :
    Compared (.char d :: t) ('\\' :: e :: s) := by
  have hleft {e : Char} {y : CodePoint} (he : e = '/' ∨ e = 'b' ∨ e = 'f') :
      Compared (y :: t) ('\\' :: e :: s) := by
    obtain rfl | rfl | rfl := he <;> exact h.left (g := ['\\', _]) rfl rfl (by simp)
  unfold Json.shortEscape? at he
  split at he
  case h_9 => cases he
  all_goals
    rename_i heq
    cases heq
    cases he
  case h_3 => exact hleft (.inl rfl)
  case h_4 => exact hleft (.inr (.inl rfl))
  case h_5 => exact hleft (.inr (.inr rfl))
  all_goals exact h.same rfl rfl

theorem Compared.pair {m : Nat} {a' b' c' d' : Char} {y : CodePoint} (h : Compared t s)
    (hn : hexNat? [a, b, c, d] = some n) (hm : hexNat? [a', b', c', d'] = some m)
    (hsn : surrogate n = true) (hsm : surrogate m = true) :
    Compared (y :: t)
      ('\\' :: 'u' :: a :: b :: c :: d :: '\\' :: 'u' :: a' :: b' :: c' :: d' :: s) := by
  refine h.left (g := ['\\', 'u', a, b, c, d, '\\', 'u', a', b', c', d']) ?_ ?_ (by simp)
  · simp [foreignEscape, hn, hsn]
  · rw [unescape_surrogate hn hsn, unescape_surrogate hm hsm]
    rfl

theorem inside_unit (hn : hexNat? [a, b, c, d] = some n) (h : Hcl.Inside s) :
    Hcl.Inside ('\\' :: 'u' :: a :: b :: c :: d :: s) := by
  have hplain : ∀ x ∈ [a, b, c, d], x ≠ '"' ∧ x ≠ '\\' := fun x hx =>
    ⟨ne_of_test ((hexNat?_four hn).2 x hx) rfl, ne_of_test ((hexNat?_four hn).2 x hx) rfl⟩
  simp only [List.forall_mem_cons] at hplain
  obtain ⟨ha, hb, hc, hd, -⟩ := hplain
  exact .escape (by decide) (.plain ha.1 ha.2 (.plain hb.1 hb.2 (.plain hc.1 hc.2
    (.plain hd.1 hd.2 h))))

/-- The inside of a string of JSON is one of the native syntax too, and the readings compare. -/
theorem compared_of_spells (h : Json.Spells true t u) (hu : u = Text.ofChars s) :
    Hcl.Inside s ∧ Compared t s := by
  induction h generalizing s with
  | nil =>
    obtain rfl : s = [] := by simpa [Text.ofChars] using hu
    exact ⟨.nil, .inl ⟨rfl, rfl⟩⟩
  | plain hquote hslash hcontrol h ih =>
    obtain ⟨x, r, rfl, rfl, hr⟩ := cons_eq_ofChars hu
    obtain ⟨hinside, hcompared⟩ := ih hr
    have hx : x ≠ '\\' := fun heq => hslash (by rw [heq])
    exact ⟨.plain (fun heq => hquote (by rw [heq])) hx hinside,
      hcompared.same (foreignEscape_cons hx _) (by simp [Hcl.unescape, hx])⟩
  | short he h ih =>
    obtain ⟨_, r₁, rfl, hslash, h₁⟩ := cons_eq_ofChars hu
    obtain ⟨e, r, rfl, rfl, hr⟩ := cons_eq_ofChars h₁
    cases hslash
    obtain ⟨hinside, hcompared⟩ := ih hr
    exact ⟨.escape (by rintro rfl; cases he) hinside, hcompared.short he⟩
  | pair hm hn hhigh hlow h ih =>
    obtain ⟨a, b, c, d, r₁, hm, rfl, h₁⟩ := escape_eq_ofChars hm hu
    obtain ⟨a', b', c', d', r, hn, rfl, hr⟩ := escape_eq_ofChars hn h₁
    obtain ⟨hinside, hcompared⟩ := ih hr
    have hhigh := surrogate_of_bounds hhigh.1 (Nat.lt_trans hhigh.2 (by decide))
    have hlow := surrogate_of_bounds (Nat.le_trans (by decide) hlow.1) hlow.2
    exact ⟨inside_unit hm (inside_unit hn hinside), hcompared.pair hm hn hhigh hlow⟩
  | unit hm hnext hlone h ih =>
    obtain ⟨a, b, c, d, r, hn, rfl, hr⟩ := escape_eq_ofChars hm hu
    obtain ⟨hinside, hcompared⟩ := ih hr
    exact ⟨inside_unit hn hinside, hcompared.unit hn⟩

inductive Scalar : List Char → Prop
  | word {w : String} (h : w ∈ ["null", "true", "false"]) : Scalar w.toList
  | integer (n : Json.Numeral) (hfraction : n.fraction = []) (hexponent : n.exponent = [])
      (h : n.whole.length ≤ 4300) : Scalar (n.sign ++ n.whole)
  | string {t : Text} {s : List Char} (h : Json.Spells true t (Text.ofChars s))
      (hs : Hcl.Unbraced s) : Scalar ('"' :: (s ++ ['"']))

theorem Compared.eq_iff (h : Compared t s) :
    Text.ofChars (Hcl.unescape s) = t ↔ foreignEscape (s ++ ['"']) = false := by
  obtain ⟨hs, heq⟩ | ⟨hs, hlt⟩ := h
  · exact iff_of_true heq hs
  · refine iff_of_false ?_ (by rw [hs]; exact Bool.noConfusion)
    rintro rfl
    rw [Text.ofChars, List.length_map] at hlt
    exact Nat.lt_irrefl _ hlt

theorem Numeral.no_slash (n : Json.Numeral) : '\\' ∉ n.sign ++ n.whole := by
  rw [List.mem_append, not_or]
  constructor
  · obtain h | h := n.sign_form <;> simp [h]
  · exact fun h => absurd (n.digits_whole.2 _ h) (by decide)

/-- Both syntaxes read an integer as the number that its sign and its digits write. -/
theorem denotes_integer (n : Json.Numeral) (h : n.whole.length ≤ 4300) :
    Hcl.Denotes (n.sign ++ n.whole)
      (.integer (if n.sign.isEmpty then (natOfDigits n.whole : Int) else -natOfDigits n.whole)) := by
  obtain ⟨hne, hds⟩ := n.digits_whole
  obtain hsign | hsign := n.sign_form
  · rw [hsign]
    exact Hcl.denotes_digits hne hds h
  · rw [hsign]
    match hwhole : n.whole, hne with
    | [d], _ =>
      rw [hwhole] at hds
      exact Hcl.denotes_negative_digit (hds d (by simp))
    | d :: e :: ds, _ =>
      rw [hwhole] at hds h
      exact Hcl.denotes_negative (by simp) hds h

/-- The values that the two syntaxes give to a scalar. -/
theorem Scalar.read (h : Scalar v) : ∃ x y : Value, Hcl.Denotes v x ∧
    Json.Writes true 0 y (Text.ofChars v) ∧ (x = y ↔ foreignEscape v = false) := by
  cases h with
  | @word w h =>
    have hword {k : Hcl.Constant} (hk : Hcl.constant? w.toList = some k)
        (hname : Hcl.IsName w.toList) (hkey : w.toList ∉ Hcl.keyWords)
        (hwrites : (w, k.value) ∈ Json.words) (hslash : '\\' ∉ w.toList) :
        ∃ x y : Value, Hcl.Denotes w.toList x ∧ Json.Writes true 0 y (Text.ofChars w.toList) ∧
          (x = y ↔ foreignEscape w.toList = false) :=
      ⟨_, _, Hcl.denotes_constant hname hkey hk, .word hwrites,
        iff_of_true rfl (foreignEscape_of_notMem hslash)⟩
    simp only [List.mem_cons, List.not_mem_nil, or_false] at h
    obtain rfl | rfl | rfl := h
    · exact hword (k := .null) rfl (Hcl.isName_cons rfl) (by decide) (.head _) (by decide)
    · exact hword (k := .true) rfl (Hcl.isName_cons rfl) (by decide) (.tail _ (.head _)) (by decide)
    · exact hword (k := .false) rfl (Hcl.isName_cons rfl) (by decide)
        (.tail _ (.tail _ (.head _))) (by decide)
  | integer n hfraction hexponent h =>
    have hwrites : Json.Writes true 0 _ n.text := .number n (Json.Numeral.value?_integer hfraction hexponent h)
    rw [Json.Numeral.text, hfraction, hexponent, List.append_nil, List.append_nil] at hwrites
    exact ⟨_, _, denotes_integer n h, hwrites,
      iff_of_true rfl (foreignEscape_of_notMem (Numeral.no_slash n))⟩
  | @string t s h hs =>
    obtain ⟨hinside, hcompared⟩ := compared_of_spells h rfl
    have hwrites : Json.Writes true 0 (.text t) _ := .text h
    refine ⟨_, .text t, hinside.denotes hs, by simpa [Text.ofChars] using hwrites, ?_⟩
    rw [Value.text.injEq, hcompared.eq_iff, foreignEscape_cons (by decide)]

theorem not_control_of_nameChar (h : Hcl.nameChar x = true) : ¬ x.toNat < 32 := by
  simp only [Hcl.nameChar, Bool.or_eq_true, Hcl.nameStart_iff, decimalDigit_iff, beq_iff_eq] at h
  obtain (h | h) | rfl := h
  · omega
  · omega
  · decide

/-- A name spells itself between the quotes of a string. -/
theorem spells_name (h : ∀ x ∈ k, Hcl.nameChar x = true) :
    Json.Spells true (Text.ofChars k) (Text.ofChars k) := by
  induction k with
  | nil => exact .nil
  | cons x k ih =>
    have hx := h x (by simp)
    exact .plain (fun heq => ne_of_test hx rfl (CodePoint.char.inj heq))
      (fun heq => ne_of_test hx rfl (CodePoint.char.inj heq)) (not_control_of_nameChar hx)
      (ih fun y hy => h y (by simp [hy]))

theorem nameChar_of_isName (h : Hcl.IsName k) : ∀ x ∈ k, Hcl.nameChar x = true := by
  obtain ⟨x, xs, rfl, hx, hxs⟩ := h
  exact List.forall_mem_cons.mpr ⟨by simp [Hcl.nameChar, hx], hxs⟩

def nativeMember (k v : List Char) : List Char := k ++ " = ".toList ++ v ++ "\n".toList

def variantMember (k v : List Char) : List Char :=
  "\x7b\"".toList ++ k ++ "\": ".toList ++ v ++ "\x7d".toList

/-- The text of an object with one member. -/
theorem writesText_member {y : Value} (hk : Hcl.IsName k)
    (hy : Json.Writes true 0 y (Text.ofChars v)) :
    Json.WritesText true 1 (.object [(Text.ofChars k, y)]) (Text.ofChars (variantMember k v)) := by
  have hblank : Json.Blank [.char ' '] := by simp [Json.Blank, Json.blank]
  have hobject : Json.Writes true 1 (.object [(Text.ofChars k, y)]) _ :=
    .members Json.blank_nil (.last (spells_name (nameChar_of_isName hk)) Json.blank_nil hblank hy
      Json.blank_nil)
  exact ⟨[], _, [], Json.blank_nil, hobject, Json.blank_nil, by simp [Text.ofChars, variantMember]⟩

/-- Each syntax reads a member as what it takes its characters for. -/
theorem parse_member {x y : Value} (hk : Hcl.Key k) (hx : Hcl.Denotes v x)
    (hy : Json.Writes true 0 y (Text.ofChars v)) :
    hcl.parse (Encoding.encode (Text.ofChars (nativeMember k v))) = .document [(Text.ofChars k, x)] ∧
      json.parse (Encoding.encode (Text.ofChars (variantMember k v))) =
        .document [(Text.ofChars k, y)] := by
  constructor
  · obtain ⟨body, hbody, hdocument⟩ := hx.read_line hk
    have hline : nativeMember k v = k ++ ' ' :: '=' :: ' ' :: (v ++ ['\n']) := by
      simp [nativeMember]
    rw [hline]
    exact hcl_of_body hbody hdocument
  · obtain hread | ⟨hdeep, -⟩ := json_reads (writesText_member hk.isName hy)
    · exact hread
    · exact absurd hdeep (by decide)

/-- A scalar that stands for the one member of a document is read in both syntaxes, and as the same
value exactly if it has no escape that is foreign to the native one. -/
theorem scalars_agree (hk : Hcl.Key k) (hv : Scalar v) :
    ∃ x y : Value,
      hcl.parse (Encoding.encode (Text.ofChars (nativeMember k v))) =
        .document [(Text.ofChars k, x)] ∧
      json.parse (Encoding.encode (Text.ofChars (variantMember k v))) =
        .document [(Text.ofChars k, y)] ∧
      (x = y ↔ foreignEscape v = false) := by
  obtain ⟨x, y, hx, hy, heq⟩ := hv.read
  obtain ⟨hnative, hvariant⟩ := parse_member hk hx hy
  exact ⟨x, y, hnative, hvariant, heq⟩

theorem key_k : Hcl.Key ['k'] := ⟨Hcl.isName_cons rfl, by decide, rfl, by decide⟩

def sampleScalar : List Char :=
  ['"', 'a', '\\', 'n', '\\', 'u', '0', '0', 'e', '9', '"']

theorem unbraced_of_notMem (h : '{' ∉ s) : Hcl.Unbraced s :=
  ⟨fun hs => h (hs.subset (by simp)), fun hs => h (hs.subset (by simp))⟩

theorem scalar_sample : Scalar sampleScalar := by
  have hunit : Json.WritesUnit 0xE9 (Text.ofChars ['0', '0', 'e', '9']) := ⟨rfl⟩
  have hescape : Json.Spells true [.ofNat 0xE9] (Text.ofChars ['\\', 'u', '0', '0', 'e', '9']) :=
    .unit hunit (by rintro ⟨h, -⟩; exact absurd h (by decide)) (.inl rfl) .nil
  have hspells : Json.Spells true _
      (Text.ofChars ['a', '\\', 'n', '\\', 'u', '0', '0', 'e', '9']) :=
    .plain (by decide) (by decide) (by decide) (.short rfl hescape)
  exact .string hspells (unbraced_of_notMem (by decide))

theorem scalars_agree_on_sample :
    Hcl.Key ['k'] ∧ Scalar sampleScalar ∧ ∃ x y : Value,
      hcl.parse (Encoding.encode (Text.ofChars (nativeMember ['k'] sampleScalar))) =
        .document [(Text.ofChars ['k'], x)] ∧
      json.parse (Encoding.encode (Text.ofChars (variantMember ['k'] sampleScalar))) =
        .document [(Text.ofChars ['k'], y)] ∧
      (x = y ↔ foreignEscape sampleScalar = false) :=
  ⟨key_k, scalar_sample, scalars_agree key_k scalar_sample⟩

/-- An escaped slash is a slash in JSON, and stays what it is in the native syntax. -/
theorem escaped_slash_disagrees :
    Hcl.Key ['k'] ∧ Scalar ['"', '\\', '/', '"'] ∧
      hcl.parse (Encoding.encode (Text.ofChars (nativeMember ['k'] ['"', '\\', '/', '"']))) =
        .document [(Text.ofChars ['k'], .text (Text.ofChars ['\\', '/']))] ∧
      json.parse (Encoding.encode (Text.ofChars (variantMember ['k'] ['"', '\\', '/', '"']))) =
        .document [(Text.ofChars ['k'], .text (Text.ofChars ['/']))] ∧
      Text.ofChars ['\\', '/'] ≠ Text.ofChars ['/'] := by
  have hspells : Json.Spells true (Text.ofChars ['/']) (Text.ofChars ['\\', '/']) :=
    .short rfl .nil
  have hunbraced : Hcl.Unbraced ['\\', '/'] := unbraced_of_notMem (by decide)
  have hx : Hcl.Denotes ['"', '\\', '/', '"'] (.text (Text.ofChars ['\\', '/'])) :=
    (Hcl.Inside.escape (by decide) .nil).denotes hunbraced
  have hy : Json.Writes true 0 (.text (Text.ofChars ['/'])) (Text.ofChars ['"', '\\', '/', '"']) :=
    .text hspells
  obtain ⟨hnative, hvariant⟩ := parse_member key_k hx hy
  exact ⟨key_k, .string hspells hunbraced, hnative, hvariant, by decide⟩

end Terraload.Parser
