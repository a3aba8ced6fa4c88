import Terraload.Parser
import Terraload.Proofs.Encoding
import Terraload.Proofs.Hcl.Redefinition
import Terraload.Proofs.Json.Halting
/-!
What a parser promises: a document, or a rejection in the name of its syntax. The native syntax
breaks the promise exactly where a block redefines an attribute or a text is nested too deeply, and
the JSON variant exactly where an integer of too many digits or a nesting that is too deep is reached.
-/
namespace Terraload.Parser

variable {bytes : Bytes} {b : Breakdown} {limit : Option Nat} {depth : Nat}

def Keeps (p : Parser) (bytes : Bytes) : Prop :=
  (∃ d, p.parse bytes = .document d) ∨ ∃ reason, p.parse bytes = .rejected ⟨p.name, reason⟩

def NestedBeyond (limit : Option Nat) (bytes : Bytes) : Prop :=
  ∃ cs body, Encoding.decodeUtf8 bytes = .ok cs ∧ Hcl.Body.read? cs = some body ∧
    ∃ n, limit = some n ∧ n < Hcl.Body.depth body

def RedefinedIn (bytes : Bytes) (name : Hcl.Name) : Prop :=
  ∃ cs body, Encoding.decodeUtf8 bytes = .ok cs ∧ Hcl.Body.read? cs = some body ∧
    Hcl.Redefines body name

/-- A content that is well formed up to a value that cannot be read, which may be nested up to a
depth. -/
def HaltedIn (depth : Nat) (bytes : Bytes) (e : Json.Failure) : Prop :=
  ∃ s d r, Encoding.decodeDetected bytes = .ok s ∧
    Json.Reaches Json.Rules.lenient.loneSurrogates depth (Json.skipBlanks s) d r ∧ Json.Stuck d r e

theorem any_eq_true {n : Nat} : limit.any (· < n) = true ↔ ∃ m, limit = some m ∧ m < n := by
  cases limit <;> simp

/-- The native syntax gives a document, rejects, or breaks off. -/
theorem hcl_keeps_or_broken (limit : Option Nat) (bytes : Bytes) :
    (hclWithin limit).Keeps bytes ∨ ∃ b, (hclWithin limit).parse bytes = .broken b := by
  unfold Keeps
  simp only [hclWithin]
  split
  next => exact .inl (.inr ⟨_, rfl⟩)
  next =>
    split
    next => exact .inl (.inr ⟨_, rfl⟩)
    next =>
      split
      next => exact .inr ⟨_, rfl⟩
      next =>
        split
        next => exact .inl (.inl ⟨_, rfl⟩)
        next => exact .inr ⟨_, rfl⟩
        next => exact .inl (.inr ⟨_, rfl⟩)
        next => exact .inl (.inr ⟨_, rfl⟩)

theorem hcl_broken_iff : (hclWithin limit).parse bytes = .broken b ↔
    b = .tooDeep ∧ NestedBeyond limit bytes ∨
      ∃ n, b = .redefined (Text.ofChars n) ∧ ¬ NestedBeyond limit bytes ∧ RedefinedIn bytes n := by
  constructor
  · intro h
    simp only [hclWithin] at h
    split at h
    next => cases h
    next cs hcs =>
      split at h
      next => cases h
      next body hbody =>
        split at h
        next hdeep =>
          cases h
          exact .inl ⟨rfl, cs, body, hcs, hbody, any_eq_true.mp hdeep⟩
        next hdeep =>
          have hflat : ¬ NestedBeyond limit bytes := by
            rintro ⟨cs', body', hcs', hbody', hdeep'⟩
            cases hcs.symm.trans hcs'
            cases hbody.symm.trans hbody'
            exact hdeep (any_eq_true.mpr hdeep')
          split at h
          next => cases h
          next n hn =>
            cases h
            exact .inr ⟨n, rfl, hflat, cs, body, hcs, hbody,
              (Hcl.document_redefined_iff body n).mp hn⟩
          next => cases h
          next => cases h
  · rintro (⟨rfl, cs, body, hcs, hbody, hdeep⟩ | ⟨n, rfl, hflat, cs, body, hcs, hbody, hn⟩)
    · simp only [hclWithin, hcs, hbody, any_eq_true.mpr hdeep, if_true]
    · have hdeep : ¬ limit.any (· < Hcl.Body.depth body) = true := fun h =>
        hflat ⟨cs, body, hcs, hbody, any_eq_true.mp h⟩
      simp only [hclWithin, hcs, hbody, if_neg hdeep, (Hcl.document_redefined_iff body n).mpr hn]

theorem json_keeps_or_broken (depth : Nat) (bytes : Bytes) :
    (jsonWithin depth).Keeps bytes ∨ ∃ b, (jsonWithin depth).parse bytes = .broken b := by
  unfold Keeps
  simp only [jsonWithin]
  split
  next => exact .inl (.inr ⟨_, rfl⟩)
  next =>
    split
    next => exact .inl (.inl ⟨_, rfl⟩)
    next => exact .inl (.inr ⟨_, rfl⟩)
    next => exact .inl (.inr ⟨_, rfl⟩)
    next => exact .inr ⟨_, rfl⟩
    next => exact .inr ⟨_, rfl⟩

theorem json_broken_iff : (jsonWithin depth).parse bytes = .broken b ↔
    b = .tooDeep ∧ HaltedIn depth bytes .tooDeep ∨
      ∃ n, b = .tooManyDigits n ∧ HaltedIn depth bytes (.tooManyDigits n) := by
  constructor
  · intro h
    simp only [jsonWithin] at h
    split at h
    next => cases h
    next s hs =>
      split at h
      next => cases h
      next => cases h
      next => cases h
      next n hn =>
        cases h
        obtain ⟨d, r, hreach⟩ := (Json.read_halts_iff _ s _).mp ⟨hn, by rintro _ _ ⟨⟩⟩
        exact .inr ⟨n, rfl, s, d, r, hs, hreach⟩
      next hdeep =>
        cases h
        obtain ⟨d, r, hreach⟩ := (Json.read_halts_iff _ s _).mp ⟨hdeep, by rintro _ _ ⟨⟩⟩
        exact .inl ⟨rfl, s, d, r, hs, hreach⟩
  · have hread {e : Json.Failure} {s r : Text} {d : Nat}
        (hreach : Json.Reaches Json.Rules.lenient.loneSurrogates depth (Json.skipBlanks s) d r ∧
          Json.Stuck d r e) :
        Json.read { Json.Rules.lenient with depth := depth } s = .error e :=
      ((Json.read_halts_iff _ s e).mpr ⟨d, r, hreach⟩).1
    rintro (⟨rfl, s, d, r, hs, hreach⟩ | ⟨n, rfl, s, d, r, hs, hreach⟩)
    · simp only [jsonWithin, hs, hread hreach]
    · simp only [jsonWithin, hs, hread hreach]

theorem Keeps.not_broken {p : Parser} (h : p.Keeps bytes) : p.parse bytes ≠ .broken b := by
  intro hb
  obtain ⟨d, hd⟩ | ⟨reason, hr⟩ := h
  · rw [hd] at hb; cases hb
  · rw [hr] at hb; cases hb

theorem Keeps.iff_not_broken {p : Parser} (h : p.Keeps bytes ∨ ∃ b, p.parse bytes = .broken b) :
    p.Keeps bytes ↔ ∀ b, p.parse bytes ≠ .broken b :=
  ⟨fun hkeeps _ => hkeeps.not_broken, fun hnone => h.resolve_right fun ⟨b, hb⟩ => hnone b hb⟩

/-- Whatever the limits on nesting are, a parser keeps its promise for a content unless something is
reached in it that the parser does not turn into a rejection. -/
theorem promise_kept_iff (limit : Option Nat) (depth : Nat) (bytes : Bytes) :
    ((hclWithin limit).Keeps bytes ↔
      ¬ NestedBeyond limit bytes ∧ ¬ ∃ n, RedefinedIn bytes n) ∧
    (∀ b, (hclWithin limit).parse bytes = .broken b ↔
      b = .tooDeep ∧ NestedBeyond limit bytes ∨
        ∃ n, b = .redefined (Text.ofChars n) ∧ ¬ NestedBeyond limit bytes ∧
          RedefinedIn bytes n) ∧
    ((jsonWithin depth).Keeps bytes ↔
      ¬ HaltedIn depth bytes .tooDeep ∧ ¬ ∃ n, HaltedIn depth bytes (.tooManyDigits n)) ∧
    (∀ b, (jsonWithin depth).parse bytes = .broken b ↔
      b = .tooDeep ∧ HaltedIn depth bytes .tooDeep ∨
        ∃ n, b = .tooManyDigits n ∧ HaltedIn depth bytes (.tooManyDigits n)) := by
  refine ⟨?native, fun b => hcl_broken_iff, ?variant, fun b => json_broken_iff⟩
  case native =>
    rw [Keeps.iff_not_broken (hcl_keeps_or_broken limit bytes)]
    constructor
    · intro hnone
      have hflat : ¬ NestedBeyond limit bytes := fun hdeep =>
        hnone _ (hcl_broken_iff.mpr (.inl ⟨rfl, hdeep⟩))
      exact ⟨hflat, fun ⟨n, hn⟩ => hnone _ (hcl_broken_iff.mpr (.inr ⟨n, rfl, hflat, hn⟩))⟩
    · rintro ⟨hflat, hdefined⟩ b hb
      obtain ⟨-, hdeep⟩ | ⟨n, -, -, hn⟩ := hcl_broken_iff.mp hb
      · exact hflat hdeep
      · exact hdefined ⟨n, hn⟩
  case variant =>
    rw [Keeps.iff_not_broken (json_keeps_or_broken depth bytes)]
    constructor
    · exact fun hnone => ⟨fun hdeep => hnone _ (json_broken_iff.mpr (.inl ⟨rfl, hdeep⟩)),
        fun ⟨n, hn⟩ => hnone _ (json_broken_iff.mpr (.inr ⟨n, rfl, hn⟩))⟩
    · rintro ⟨hdeep, hdigits⟩ b hb
      obtain ⟨-, h⟩ | ⟨n, -, h⟩ := json_broken_iff.mp hb
      · exact hdeep h
      · exact hdigits ⟨n, h⟩

def breaks (p : Parser) (bytes : Bytes) : Bool :=
  match p.parse bytes with
  | .broken _ => true
  | _ => false

theorem Keeps.breaks_eq_false {p : Parser} (h : p.Keeps bytes) : p.breaks bytes = false := by
  unfold breaks
  split
  next hb => exact absurd hb h.not_broken
  next => rfl

def redefining : Bytes := [97, 32, 61, 32, 49, 10, 97, 32, 123, 125, 10]

def ones (n : Nat) : List Char :=
  '{' :: '"' :: 'a' :: '"' :: ':' :: (List.replicate n '1' ++ ['}'])

theorem ofChars_ones (n : Nat) : Text.ofChars (ones n) = .char '{' :: .char '"' :: .char 'a' ::
    .char '"' :: .char ':' :: (Text.ofChars (List.replicate n '1') ++ [.char '}']) := by
  simp [ones, Text.ofChars]

theorem decode_ones (n : Nat) : Encoding.decodeDetected (Encoding.encode (Text.ofChars (ones n))) =
    .ok (Text.ofChars (ones n)) :=
  Encoding.decodeDetected_encode (by decide) (by decide) (by decide) _

theorem skipBlanks_ones (n : Nat) :
    Json.skipBlanks (Text.ofChars (ones n)) = Text.ofChars (ones n) := by
  rw [ofChars_ones]
  rfl

theorem halted_ones {n : Nat} (hn : 4300 < n) (depth : Nat) :
    HaltedIn (depth + 1) (Encoding.encode (Text.ofChars (ones n))) (.tooManyDigits n) := by
  have hdigits : Json.Digits (List.replicate n '1') :=
    ⟨by simp; omega, fun d hd => by rw [List.eq_of_mem_replicate hd]; rfl⟩
  have hhead : (List.replicate n '1').head? ≠ some '0' := by
    simp [List.head?_replicate]
  have hblank : Json.Blank [] := by simp [Json.Blank]
  have hname : Json.Spells true [.char 'a'] [.char 'a'] :=
    .plain (by decide) (by decide) (by decide) .nil
  have hstuck : Json.Stuck depth (Text.ofChars (List.replicate n '1') ++ [.char '}'])
      (.tooManyDigits n) := by
    simpa [Json.Numeral.text] using Json.Stuck.integer ⟨[], List.replicate n '1', [], [],
      .inl rfl, .inr ⟨hdigits, hhead⟩, .inl rfl, .inl rfl⟩ rfl rfl
      (by simpa [Json.digitLimit] using hn) (Json.ends_cons rfl [])
  refine ⟨_, depth, _, decode_ones n, ?_, hstuck⟩
  have hreach := Json.Reaches.member (d := depth) hblank .nil hname hblank hblank
    (Json.Reaches.here (s := Text.ofChars (List.replicate n '1') ++ [.char '}']))
  rw [skipBlanks_ones, ofChars_ones]
  exact hreach

/-- Neither syntax keeps its promise for every content, whatever the limits are. -/
theorem promise_broken :
    (∀ limit, ¬ (hclWithin limit).Keeps redefining) ∧
      ∀ depth, ¬ (jsonWithin depth).Keeps (Encoding.encode (Text.ofChars (ones 4301))) := by
  constructor
  · intro limit hkeeps
    have hbreaks : hcl.breaks redefining = true := by decide +kernel
    have hdefined : ∃ n, RedefinedIn redefining n := by
      by_contra hnone
      refine Bool.eq_false_iff.mp (Keeps.breaks_eq_false ?_) hbreaks
      refine (hcl_keeps_or_broken none redefining).resolve_right fun ⟨b, hb⟩ => ?_
      obtain ⟨-, _, _, -, -, n, hlimit, -⟩ | ⟨n, -, -, hn⟩ := hcl_broken_iff.mp hb
      · cases hlimit
      · exact hnone ⟨n, hn⟩
    obtain ⟨n, hn⟩ := hdefined
    by_cases hdeep : NestedBeyond limit redefining
    · exact hkeeps.not_broken (hcl_broken_iff.mpr (.inl ⟨rfl, hdeep⟩))
    · exact hkeeps.not_broken (hcl_broken_iff.mpr (.inr ⟨n, rfl, hdeep, hn⟩))
  · intro depth hkeeps
    cases depth with
    | zero =>
      have hhalted : HaltedIn 0 (Encoding.encode (Text.ofChars (ones 4301))) .tooDeep := by
        refine ⟨_, 0, _, decode_ones 4301, .here, ?_⟩
        rw [skipBlanks_ones, ofChars_ones]
        exact .object
      exact hkeeps.not_broken (json_broken_iff.mpr (.inl ⟨rfl, hhalted⟩))
    | succ depth =>
      exact hkeeps.not_broken
        (json_broken_iff.mpr (.inr ⟨4301, rfl, halted_ones (by decide) depth⟩))

end Terraload.Parser
