import Terraload.Proofs.Encoding
import Terraload.Proofs.Hcl.Opening
import Terraload.Proofs.Hcl.Token
import Terraload.Proofs.Json.Opening
import Terraload.Proofs.Session.Change
/-!
The two syntaxes exclude each other: one of the two parsers rejects, whatever the bytes are. So the
order in which they are tried does not matter.
-/
namespace Terraload

open Encoding

theorem blank_char (c : Char) : Json.blank (.char c) = Hcl.layoutChar c := by
  simp only [Json.blank, Hcl.layoutChar, Hcl.blank, CodePoint.char.injEq,
    Bool.beq_eq_decide_eq]
  grind

/-- Characters have the same opening in both syntaxes. -/
theorem opening?_ofChars (cs : List Char) :
    Json.opening? (Text.ofChars cs) = (Hcl.opening? cs).map .char := by
  induction cs with
  | nil => rfl
  | cons c cs ih =>
    cases hc : Hcl.layoutChar c with
    | true =>
      have hb : Json.blank (.char c) = true := (blank_char c).trans hc
      rw [Hcl.opening?_cons_of_layout hc, ← ih]
      simp [Json.opening?, Json.skipBlanks, Text.ofChars, hb]
    | false =>
      have hb : Json.blank (.char c) = false := (blank_char c).trans hc
      rw [Hcl.opening?_cons_of_not hc]
      simp [Json.opening?, Json.skipBlanks, Text.ofChars, hb]

/-- What opens an object or a number opens no entry of a body. -/
theorem not_opensEntry_of_opensDeep {c : Char} (h : Json.opensDeep (.char c) = true) :
    Hcl.opensEntry c = false := by
  simp only [Json.opensDeep, Json.digit?, Bool.or_eq_true, beq_iff_eq, CodePoint.char.injEq] at h
  obtain ((rfl | rfl) | rfl) | hdigit := h
  · rfl
  · rfl
  · rfl
  · have hc : decimalDigit c = true := by
      cases hd : decimalDigit c with
      | true => rfl
      | false => simp [hd] at hdigit
    have hhash : c ≠ '#' := ne_of_test hc rfl
    have hslash : c ≠ '/' := ne_of_test hc rfl
    simp [Hcl.opensEntry, Hcl.not_nameStart_of_digit hc, hhash, hslash]

/-- The code point NUL and the mark of byte order open no entry. -/
theorem opening?_nul (cs : List Char) : Hcl.opening? ('\x00' :: cs) = some '\x00' := rfl

theorem opening?_mark (cs : List Char) : Hcl.opening? ('\uFEFF' :: cs) = some '\uFEFF' := rfl

/-- An ASCII character with a NUL behind it: if it is layout, the NUL is the opening. -/
theorem opening?_before_nul {d : Char} {cs : List Char} {t : Text} {c : CodePoint}
    (hc : Json.opening? (.char d :: t) = some c) (hdeep : Json.opensDeep c = true) :
    ∃ e, Hcl.opening? (d :: '\x00' :: cs) = some e ∧ Hcl.opensEntry e = false := by
  cases hd : Hcl.layoutChar d with
  | true =>
    rw [Hcl.opening?_cons_of_layout hd]
    exact ⟨'\x00', opening?_nul cs, rfl⟩
  | false =>
    have hb : Json.blank (.char d) = false := (blank_char d).trans hd
    have hcd : c = .char d := by
      simpa [Json.opening?, Json.skipBlanks, hb] using hc.symm
    rw [hcd] at hdeep
    exact ⟨d, Hcl.opening?_cons_of_not hd _, not_opensEntry_of_opensDeep hdeep⟩

/-- Whatever codec the first bytes tell: if the bytes are also UTF-8 and what they tell opens an
object or a number, then the characters open no body. -/
theorem opening?_of_decoded {bytes : Bytes} {cs : List Char} {t : Text} {c : CodePoint}
    (hcs : decodeUtf8 bytes = .ok cs) (ht : decodeDetected bytes = .ok t)
    (hc : Json.opening? t = some c) (hdeep : Json.opensDeep c = true) :
    ∃ e, Hcl.opening? cs = some e ∧ Hcl.opensEntry e = false := by
  obtain ⟨r, rfl | rfl | rfl⟩ | ⟨r, rfl⟩ | ⟨a, r, rfl, hd⟩ |
    ⟨a, r, rfl, hd⟩ | hd := detect_cases bytes
  -- A zero byte is the character NUL, and no mark of UTF-16 or UTF-32 is UTF-8.
  · obtain ⟨d, u, rest, q, hnext, rfl, -⟩ := decodeAll_cons hcs
    rw [nextChar_nul] at hnext
    cases hnext
    exact ⟨'\x00', opening?_nul rest, rfl⟩
  · obtain ⟨d, u, rest, q, hnext, -⟩ := decodeAll_cons hcs
    cases hnext
  · obtain ⟨d, u, rest, q, hnext, -⟩ := decodeAll_cons hcs
    cases hnext
  · obtain ⟨d, u, rest, q, hnext, rfl, -⟩ := decodeAll_cons hcs
    rw [nextChar_mark] at hnext
    cases hnext
    exact ⟨'\uFEFF', opening?_mark rest, rfl⟩
  -- Both readings start with the same ASCII character; as UTF-8 a NUL stands behind it.
  · obtain ⟨ha, rest, rfl⟩ := decodeUtf8_before_nul hcs
    rw [decodeDetected, hd] at ht
    obtain ⟨d, u, t', hfirst, rfl⟩ := decode_cons ht
    rw [next16_le_zero ha] at hfirst
    cases hfirst
    exact opening?_before_nul hc hdeep
  · obtain ⟨ha, rest, rfl⟩ := decodeUtf8_before_nul hcs
    rw [decodeDetected, hd] at ht
    obtain ⟨d, u, t', hfirst, rfl⟩ := decode_cons ht
    rw [next32_le_zero ha] at hfirst
    cases hfirst
    exact opening?_before_nul hc hdeep
  -- Both read UTF-8, so their texts have the same opening.
  · simp only [decodeDetected, hd] at ht
    have ht' := decode_utf8_of_decodeUtf8 hcs 0
    rw [ht] at ht'
    cases ht'
    rw [opening?_ofChars] at hc
    obtain ⟨e, he, rfl⟩ := Option.map_eq_some_iff.mp hc
    exact ⟨e, he, not_opensEntry_of_opensDeep hdeep⟩

namespace Parser

theorem json_rejects_of_mild {bytes : Bytes} {t : Text} (ht : decodeDetected bytes = .ok t)
    (hmild : Json.Mild id (Json.read .lenient t)) : ∃ r, json.parse bytes = .rejected r := by
  obtain ⟨v, hv, hobject⟩ | ⟨f, left, hf⟩ := hmild
  · cases v with
    | object ms => exact absurd rfl (hobject ms)
    | _ => simp [json, jsonWithin, ht, hv]
  · simp [json, jsonWithin, ht, hf]

/-- Whatever the bytes are, one of the two syntaxes rejects them. -/
theorem hcl_or_json_rejects (bytes : Bytes) :
    (∃ r, hcl.parse bytes = .rejected r) ∨ ∃ r, json.parse bytes = .rejected r := by
  cases hcs : decodeUtf8 bytes with
  | error p => left; simp [hcl, hclWithin, hcs]
  | ok cs =>
    cases hread : Hcl.Body.read? cs with
    | none => left; simp [hcl, hclWithin, hcs, hread]
    | some body =>
      right
      cases ht : decodeDetected bytes with
      | error p => simp [json, jsonWithin, ht]
      | ok t =>
        refine json_rejects_of_mild ht (Json.read_mild (fun c hc => ?_) _)
        cases hdeep : Json.opensDeep c with
        | false => rfl
        | true =>
          obtain ⟨e, he, hentry⟩ := opening?_of_decoded hcs ht hc hdeep
          rw [Hcl.Body.opensEntry_of_read? hread he] at hentry
          cases hentry

/-- Of two parsers one of which rejects, the other one decides, in either order. -/
theorem parseFirst_swap {p q : Parser} {bytes : Bytes}
    (h : (∃ r, p.parse bytes = .rejected r) ∨ ∃ r, q.parse bytes = .rejected r) :
    (parseFirst [p, q] bytes).result = (parseFirst [q, p] bytes).result := by
  obtain ⟨r, h⟩ | ⟨r, h⟩ := h
  · cases hq : q.parse bytes <;> simp [parseFirst, h, hq]
  · cases hp : p.parse bytes <;> simp [parseFirst, h, hp]

end Parser

namespace Session

def SameTrials (a b : Config) : Prop :=
  ∀ bytes, (Parser.parseFirst a.tfvarsParsers bytes).result =
    (Parser.parseFirst b.tfvarsParsers bytes).result

theorem loadTfvarsFile_same {a b : Config} (h : SameTrials a b) (fs : FileSystem) (path : Text)
    (s : Session) :
    (loadTfvarsFile a fs path s).session = (loadTfvarsFile b fs path s).session ∧
    (loadTfvarsFile a fs path s).failure = (loadTfvarsFile b fs path s).failure := by
  by_cases hpath : fs.exists? path = true
  · cases hread : fs.read path with
    | error f => cases f <;> simp [loadTfvarsFile, hpath, hread]
    | ok bytes =>
      have hbytes := h bytes
      cases ha : (Parser.parseFirst a.tfvarsParsers bytes).result with
      | error e =>
        rw [ha] at hbytes
        simp [loadTfvarsFile, hpath, hread, ha, ← hbytes]
      | ok d =>
        rw [ha] at hbytes
        cases d <;> simp [loadTfvarsFile, hpath, hread, ha, ← hbytes]
  · simp [loadTfvarsFile, hpath]

theorem loadTfvarsFiles_same {a b : Config} (h : SameTrials a b) (fs : FileSystem)
    (paths : List Text) (s : Session) :
    (loadTfvarsFiles a fs paths s).session = (loadTfvarsFiles b fs paths s).session ∧
    (loadTfvarsFiles a fs paths s).failure = (loadTfvarsFiles b fs paths s).failure := by
  induction paths generalizing s with
  | nil => exact ⟨rfl, rfl⟩
  | cons path rest ih =>
    obtain ⟨hsession, hfailure⟩ := loadTfvarsFile_same h fs path s
    rcases hstep₁ : loadTfvarsFile a fs path s with ⟨s₁, log₁, f₁⟩
    rcases hstep₂ : loadTfvarsFile b fs path s with ⟨s₂, log₂, f₂⟩
    -- Both go on from the same session, or stop with the same failure.
    rw [hstep₁, hstep₂] at hsession hfailure
    dsimp only at hsession hfailure
    subst hsession
    subst hfailure
    cases f₁ with
    | some f => simp [loadTfvarsFiles, hstep₁, hstep₂]
    | none => simpa [loadTfvarsFiles, hstep₁, hstep₂, Step.after] using ih s₁

end Session

/-- No bytes are a document in both syntaxes. So trying them in either order gives the same document,
none, or the same failure, and a list of override files leaves the same session. -/
theorem syntaxes_exclude_each_other :
    (∀ bytes d e,
      ¬ (Parser.hcl.parse bytes = .document d ∧ Parser.json.parse bytes = .document e)) ∧
    (∀ bytes, (Parser.parseFirst [Parser.hcl, Parser.json] bytes).result =
      (Parser.parseFirst [Parser.json, Parser.hcl] bytes).result) ∧
    ∀ (settings : Settings) (template : Parser) (limit : Nat) (fs : FileSystem) (paths : List Text)
        (s : Session),
      let forth := s.loadTfvars ⟨settings, template, [Parser.hcl, Parser.json], limit⟩ fs paths
      let back := s.loadTfvars ⟨settings, template, [Parser.json, Parser.hcl], limit⟩ fs paths
      forth.session = back.session ∧ forth.failure = back.failure := by
  have hswap : ∀ bytes, (Parser.parseFirst [Parser.hcl, Parser.json] bytes).result =
      (Parser.parseFirst [Parser.json, Parser.hcl] bytes).result :=
    fun bytes => Parser.parseFirst_swap (Parser.hcl_or_json_rejects bytes)
  refine ⟨?_, hswap, ?_⟩
  · rintro bytes d e ⟨hd, he⟩
    obtain ⟨r, h⟩ | ⟨r, h⟩ := Parser.hcl_or_json_rejects bytes
    · rw [hd] at h; cases h
    · rw [he] at h; cases h
  · intro settings template limit fs paths s
    exact Session.loadTfvarsFiles_same (fun bytes => hswap bytes) fs paths s

end Terraload
