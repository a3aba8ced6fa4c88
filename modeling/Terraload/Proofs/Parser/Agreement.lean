import Terraload.Parser
import Terraload.Proofs.Encoding
import Terraload.Proofs.Hcl.PlainDocument
import Terraload.Proofs.Json.Reading
/-!
The two syntaxes agree on plain data: a document is read back from its text in either of them.
-/
namespace Terraload.Parser

variable {d : Document} {native variant : List Char} {levels : Nat}

/-- A body that is read from a text and has a document. -/
theorem hcl_of_body {body : Hcl.Body} (hbody : Hcl.Body.read? native = some body)
    (hd : body.document = .ok d) :
    hcl.parse (Encoding.encode (Text.ofChars native)) = .document d := by
  simp only [hcl, hclWithin, Encoding.decodeUtf8_encode, hbody, hd, Option.any_none,
    Bool.false_eq_true, if_false]

theorem hcl_reads (h : Hcl.PlainDocument d native) :
    hcl.parse (Encoding.encode (Text.ofChars native)) = .document d := by
  obtain ⟨body, hbody, hd⟩ := h.read
  exact hcl_of_body hbody hd

def Ascii (c : CodePoint) : Prop := ∃ a : Char, c = .char a ∧ a.toNat < 0x80 ∧ a ≠ '\x00'

theorem ascii_of_blank {c : CodePoint} (h : Json.blank c = true) : Ascii c := by
  simp only [Json.blank, Bool.or_eq_true, decide_eq_true_eq] at h
  obtain ((rfl | rfl) | rfl) | rfl := h <;> exact ⟨_, rfl, by decide, by decide⟩

theorem ascii_of_blanks {w : Text} (hw : Json.Blank w) {c : CodePoint} (hc : Ascii c) (t : Text) :
    ∃ a u, w ++ c :: t = a :: u ∧ Ascii a := by
  cases w with
  | nil => exact ⟨c, t, rfl, hc⟩
  | cons a w => exact ⟨a, w ++ c :: t, rfl, ascii_of_blank (hw a (by simp))⟩

/-- The text of an object starts with two ASCII characters. -/
theorem ascii_of_object {s : Text} (h : Json.WritesText true levels (.object d) s) :
    ∃ a b t, s = a :: b :: t ∧ Ascii a ∧ Ascii b := by
  have hbrace : Ascii (.char '{') := ⟨_, rfl, by decide, by decide⟩
  obtain ⟨w, u, x, hw, hu, -, rfl⟩ := h
  obtain ⟨b, t, rfl, hb⟩ : ∃ b t, u = .char '{' :: b :: t ∧ Ascii b := by
    cases hu with
    | word h => simp [Json.words] at h
    | number k h =>
      simp only [Json.Numeral.value?, Json.numberValue?] at h
      split at h
      next =>
        split at h <;> cases h
      next =>
        obtain ⟨y, -, hy⟩ := Option.map_eq_some_iff.mp h
        cases hy
    | @noMembers m w hw =>
      obtain ⟨b, t, ht, hb⟩ := ascii_of_blanks hw (c := .char '}') ⟨_, rfl, by decide, by decide⟩ []
      exact ⟨b, t, by rw [ht], hb⟩
    | @members m w s ms hw h =>
      obtain ⟨y, rfl⟩ := h.quote
      obtain ⟨b, t, ht, hb⟩ := ascii_of_blanks hw (c := .char '"') ⟨_, rfl, by decide, by decide⟩
        (y ++ [.char '}'])
      exact ⟨b, t, by rw [List.cons_append, ht], hb⟩
  cases w with
  | nil => exact ⟨_, b, _, rfl, hbrace, hb⟩
  | cons a w =>
    have ha := ascii_of_blank (hw a (by simp))
    obtain ⟨c, v, hv, hc⟩ := ascii_of_blanks (w := w) (fun e he => hw e (by simp [he])) hbrace
      (b :: t ++ x)
    exact ⟨a, c, v, by rw [← hv]; rfl, ha, hc⟩

theorem json_reads (h : Json.WritesText true levels (.object d) (Text.ofChars variant)) :
    json.parse (Encoding.encode (Text.ofChars variant)) = .document d ∨
      Json.Rules.lenient.depth < levels ∧
        json.parse (Encoding.encode (Text.ofChars variant)) = .broken .tooDeep := by
  have hdecode : Encoding.decodeDetected (Encoding.encode (Text.ofChars variant)) =
      .ok (Text.ofChars variant) := by
    obtain ⟨_, _, t, ht, ⟨a, rfl, ha, ha0⟩, b, rfl, -, hb0⟩ := ascii_of_object h
    match variant, ht with
    | c :: e :: cs, ht =>
      cases ht
      exact Encoding.decodeDetected_encode ha ha0 hb0 cs
  have hread : Json.Given levels Json.Rules.lenient.depth _ _ := Json.read_complete h
  obtain hread | ⟨hlevels, hread⟩ := hread
  · exact .inl (by simp only [json, jsonWithin, lenient_eta, hdecode, hread])
  · exact .inr ⟨hlevels, by simp only [json, jsonWithin, lenient_eta, hdecode, hread]⟩

/-- A document of plain data is what its native text and every JSON text of it give, unless the
JSON text is nested too deeply. -/
theorem syntaxes_agree (hnative : Hcl.PlainDocument d native)
    (hvariant : Json.WritesText true levels (.object d) (Text.ofChars variant)) :
    hcl.parse (Encoding.encode (Text.ofChars native)) = .document d ∧
      (json.parse (Encoding.encode (Text.ofChars variant)) = .document d ∨
        Json.Rules.lenient.depth < levels ∧
          json.parse (Encoding.encode (Text.ofChars variant)) = .broken .tooDeep) :=
  ⟨hcl_reads hnative, json_reads hvariant⟩

def sample : Document :=
  [(text "a", .list [.integer 1, .boolean true]),
    (text "b-2", .object [(text "c", .text (text "x y"))])]

def sampleNative : List Char := "a = [1, true]\nb-2 = \x7bc = \"x y\"\x7d\n".toList

def sampleVariant : List Char :=
  "\x7b\"a\": [1, true],\n \"b-2\": \x7b\"\\u0063\": \"x y\"\x7d\x7d\n".toList

theorem sample_native : Hcl.PlainDocument sample sampleNative where
  names := by decide
  lines := by
    have hc : Hcl.Key ['c'] := ⟨Hcl.isName_cons rfl, by decide, rfl, by decide⟩
    have ha : Hcl.Key ['a'] := ⟨Hcl.isName_cons rfl, by decide, rfl, by decide⟩
    have hb : Hcl.Key ['b', '-', '2'] := ⟨Hcl.isName_cons rfl, by decide, rfl, by decide⟩
    have htext : ∀ x ∈ ['x', ' ', 'y'], Hcl.PlainChar x := by
      simp [Hcl.PlainChar]
    have hlist : Hcl.Plain (.list [.integer 1, .boolean true]) "[1, true]".toList :=
      .list (.more (.integer 1 (by decide)) (.last .yes))
    have hobject : Hcl.Plain (.object [(text "c", .text (text "x y"))])
        "\x7bc = \"x y\"\x7d".toList := .object (by decide) (.last hc (.text htext))
    exact .line ha hlist (.line hb hobject .nil)

theorem sample_variant : Json.WritesText true 2 (.object sample) (Text.ofChars sampleVariant) := by
  have hplain {c : Char} {t s : Text} (h1 : c ≠ '"') (h2 : c ≠ '\\') (h3 : ¬ c.toNat < 32)
      (h : Json.Spells true t s) : Json.Spells true (.char c :: t) (.char c :: s) :=
    .plain (fun h => h1 (CodePoint.char.inj h)) (fun h => h2 (CodePoint.char.inj h)) h3 h
  have hnone : Json.Blank [] := by simp [Json.Blank]
  have hblank : Json.Blank [.char ' '] := by simp [Json.Blank, Json.blank]
  have hline : Json.Blank [.char '\n', .char ' '] := by simp [Json.Blank, Json.blank]
  have hend : Json.Blank [.char '\n'] := by simp [Json.Blank, Json.blank]
  have hone : Json.Writes true 0 (.integer 1) (text "1") :=
    .number ⟨[], ['1'], [], [], .inl rfl, .inr ⟨⟨by decide, by simp; decide⟩, by decide⟩, .inl rfl,
      .inl rfl⟩ rfl
  have htrue : Json.Writes true 0 (.boolean true) (text "true") := .word (by simp [Json.words])
  have hlist : Json.Writes true 1 (.list [.integer 1, .boolean true]) (text "[1, true]") :=
    .items hnone (.more hone hnone hblank (.last htrue hnone))
  have ha : Json.Spells true (text "a") (text "a") :=
    hplain (by decide) (by decide) (by decide) .nil
  have hb : Json.Spells true (text "b-2") (text "b-2") :=
    hplain (by decide) (by decide) (by decide) (hplain (by decide) (by decide) (by decide)
      (hplain (by decide) (by decide) (by decide) .nil))
  have hunit : Json.WritesUnit 0x63 (text "0063") := ⟨rfl⟩
  have hc : Json.Spells true (text "c") (text "\\u0063") :=
    .unit hunit (by rintro ⟨h, -⟩; exact absurd h (by decide)) (.inl rfl) .nil
  have hxy : Json.Spells true (text "x y") (text "x y") :=
    hplain (by decide) (by decide) (by decide) (hplain (by decide) (by decide) (by decide)
      (hplain (by decide) (by decide) (by decide) .nil))
  have hobject : Json.Writes true 1 (.object [(text "c", .text (text "x y"))])
      (text "\x7b\"\\u0063\": \"x y\"\x7d") :=
    .members hnone (.last hc hnone hblank (.text hxy) hnone)
  have hsample : Json.Writes true 2 (.object sample)
      (text "\x7b\"a\": [1, true],\n \"b-2\": \x7b\"\\u0063\": \"x y\"\x7d\x7d") :=
    .members hnone (.more ha hnone hblank hlist hnone hline (.last hb hnone hblank hobject hnone))
  exact ⟨[], _, _, hnone, hsample, hend, rfl⟩

theorem syntaxes_agree_on_sample :
    Hcl.PlainDocument sample sampleNative ∧
      Json.WritesText true 2 (.object sample) (Text.ofChars sampleVariant) ∧
      hcl.parse (Encoding.encode (Text.ofChars sampleNative)) = .document sample ∧
      (json.parse (Encoding.encode (Text.ofChars sampleVariant)) = .document sample ∨
        Json.Rules.lenient.depth < 2 ∧
          json.parse (Encoding.encode (Text.ofChars sampleVariant)) = .broken .tooDeep) :=
  ⟨sample_native, sample_variant, syntaxes_agree sample_native sample_variant⟩

end Terraload.Parser
