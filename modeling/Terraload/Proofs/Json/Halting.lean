import Terraload.Proofs.Json.Reading
/-!
When the reading of a text ends in a failure that is no fault of its form: exactly if everything up
to some value is well formed and that value is a list or an object where no level of nesting is
left, or an integer of too many digits.
-/
namespace Terraload.Json

variable {lone : Bool} {n d d' : Nat} {s t r u w x y p q k : Text} {v : Value} {e : Failure}

inductive ItemsBefore (lone : Bool) (d : Nat) : Text → Prop
  | nil : ItemsBefore lone d []
  | item {v : Value} {u w x p : Text} (h : Writes lone d v u) (hw : Blank w) (hx : Blank x)
      (hp : ItemsBefore lone d p) : ItemsBefore lone d (u ++ (w ++ .char ',' :: (x ++ p)))

inductive MembersBefore (lone : Bool) (d : Nat) : Text → Prop
  | nil : MembersBefore lone d []
  | member {k q w x u y z p : Text} {v : Value} (hk : Spells lone k q) (hw : Blank w) (hx : Blank x)
      (h : Writes lone d v u) (hy : Blank y) (hz : Blank z) (hp : MembersBefore lone d p) :
      MembersBefore lone d (.char '"' :: (q ++ .char '"' :: (w ++ .char ':' :: (x ++
        (u ++ (y ++ .char ',' :: (z ++ p)))))))

inductive Reaches (lone : Bool) : Nat → Text → Nat → Text → Prop
  | here {d : Nat} {s : Text} : Reaches lone d s d s
  | item {d d' : Nat} {w p s r : Text} (hw : Blank w) (hp : ItemsBefore lone d p)
      (h : Reaches lone d s d' r) : Reaches lone (d + 1) (.char '[' :: (w ++ (p ++ s))) d' r
  | member {d d' : Nat} {w p k q x y s r : Text} (hw : Blank w) (hp : MembersBefore lone d p)
      (hk : Spells lone k q) (hx : Blank x) (hy : Blank y) (h : Reaches lone d s d' r) :
      Reaches lone (d + 1) (.char '{' :: (w ++ (p ++ .char '"' :: (q ++ .char '"' ::
        (x ++ .char ':' :: (y ++ s)))))) d' r

inductive Stuck : Nat → Text → Failure → Prop
  | list {s : Text} : Stuck 0 (.char '[' :: s) .tooDeep
  | object {s : Text} : Stuck 0 (.char '{' :: s) .tooDeep
  | integer {d : Nat} {r : Text} (k : Numeral) (hfraction : k.fraction = [])
      (hexponent : k.exponent = []) (hwhole : digitLimit < k.whole.length) (hr : Ends r) :
      Stuck d (k.text ++ r) (.tooManyDigits k.whole.length)

def Failure.NoFault (e : Failure) : Prop := ∀ f left, e ≠ .malformed f left

theorem Numeral.value?_error {k : Numeral} (h : k.value? = some (.error e)) :
    k.fraction = [] ∧ k.exponent = [] ∧ digitLimit < k.whole.length ∧
      e = .tooManyDigits k.whole.length := by
  simp only [Numeral.value?, numberValue?] at h
  split at h
  next hparts =>
    simp only [Bool.and_eq_true, List.isEmpty_iff] at hparts
    split at h
    next hlimit => cases h; exact ⟨hparts.1, hparts.2, hlimit, rfl⟩
    next => cases h
  next =>
    obtain ⟨x, -, hx⟩ := Option.map_eq_some_iff.mp h
    cases hx

theorem Numeral.value?_tooManyDigits {k : Numeral} (hf : k.fraction = []) (he : k.exponent = [])
    (hw : digitLimit < k.whole.length) : k.value? = some (.error (.tooManyDigits k.whole.length)) := by
  simp [Numeral.value?, numberValue?, hf, he, hw]

def Caused (lone : Bool) (d : Nat) (s : Text) (e : Failure) : Prop :=
  ∃ d' r, Reaches lone d s d' r ∧ Stuck d' r e

structure Halts (lone : Bool) (n : Nat) : Prop where
  value : ∀ {d s e}, value lone n d s = .error e → e.NoFault →
    2 * s.length < n → Caused lone d s e
  items : ∀ {d s e}, items lone n d s = .error e → e.NoFault →
    2 * s.length + 1 < n → ∃ p t, s = p ++ t ∧ ItemsBefore lone d p ∧ Caused lone d t e
  members : ∀ {d before s e}, members lone n d before s = .error e →
    e.NoFault → 2 * s.length + 1 < n →
    ∃ p k q x y t, s = p ++ .char '"' :: (q ++ .char '"' :: (x ++ .char ':' :: (y ++ t))) ∧
      MembersBefore lone d p ∧ Spells lone k q ∧ Blank x ∧ Blank y ∧ Caused lone d t e

theorem scalar_halts (h : scalar s = .error e) (he : e.NoFault) :
    Caused lone d s e := by
  unfold scalar at h
  split at h
  next => cases h
  next =>
    split at h
    next => cases h
    next hnumber =>
      cases h
      obtain ⟨k, rfl, hk, hends⟩ := number?_sound hnumber
      obtain ⟨hf, hx, hw, rfl⟩ := k.value?_error hk
      refine ⟨d, _, .here, .integer k hf hx hw (hends hf hx ?_)⟩
      -- Digits behind a zero are left over, but a zero alone is not too long.
      intro hzero
      rw [hzero] at hw
      exact absurd hw (by decide)
    next => cases h; exact absurd rfl (he _ _)

theorem Halts.value_succ (ih : Halts lone n) (h : Json.value lone (n + 1) d s = .error e)
    (he : e.NoFault) (hn : 2 * s.length < n + 1) : Caused lone d s e := by
  unfold Json.value at h
  split at h
  next s =>
    split at h
    next => cases h
    next hstring =>
      cases h
      obtain ⟨f, left, rfl⟩ := string_malformed n hstring
      exact absurd rfl (he f left)
  next s =>
    split at h
    next => cases h; exact ⟨0, _, .here, .object⟩
    next d =>
      obtain ⟨w, hw, hs⟩ := skipBlanks_split s
      have hlength := skipBlanks_length s
      split at h
      next => cases h
      next =>
        split at h
        next => cases h
        next hmembers =>
          cases h
          simp only [List.length_cons] at hn
          obtain ⟨p, k, q, x, y, t, ht, hp, hk, hx, hy, d', r, hreach, hstuck⟩ :=
            ih.members hmembers he (by omega)
          exact ⟨d', r, by rw [hs, ht]; exact .member hw hp hk hx hy hreach, hstuck⟩
  next s =>
    split at h
    next => cases h; exact ⟨0, _, .here, .list⟩
    next d =>
      obtain ⟨w, hw, hs⟩ := skipBlanks_split s
      have hlength := skipBlanks_length s
      split at h
      next => cases h
      next =>
        split at h
        next => cases h
        next hitems =>
          cases h
          simp only [List.length_cons] at hn
          obtain ⟨p, t, ht, hp, d', r, hreach, hstuck⟩ := ih.items hitems he (by omega)
          exact ⟨d', r, by rw [hs, ht]; exact .item hw hp hreach, hstuck⟩
  next => exact scalar_halts h he

theorem Halts.items_succ (ih : Halts lone n) (h : Json.items lone (n + 1) d s = .error e)
    (he : e.NoFault) (hn : 2 * s.length + 1 < n + 1) :
    ∃ p t, s = p ++ t ∧ ItemsBefore lone d p ∧ Caused lone d t e := by
  unfold Json.items at h
  split at h
  next hv =>
    cases h
    exact ⟨[], s, rfl, .nil, ih.value hv he (by omega)⟩
  next v t hv =>
    obtain ⟨u, rfl, hu⟩ := (sound lone n).value hv
    obtain ⟨w, hw, ht⟩ := skipBlanks_split t
    have hlength := skipBlanks_length t
    split at h
    next => cases h
    next t' heq =>
      obtain ⟨x, hx, ht'⟩ := skipBlanks_split t'
      have hlength' := skipBlanks_length t'
      simp only [heq, List.length_cons] at hlength
      simp only [List.length_append] at hn
      split at h
      next => cases h
      next hitems =>
        cases h
        obtain ⟨p, y, hy, hp, hcaused⟩ := ih.items hitems he (by omega)
        exact ⟨_, y, by rw [ht, heq, ht', hy]; simp, .item hu hw hx hp, hcaused⟩
    next => cases h; exact absurd rfl (he _ _)

theorem Halts.members_succ (ih : Halts lone n) {before : Members Value}
    (h : Json.members lone (n + 1) d before s = .error e) (he : e.NoFault)
    (hn : 2 * s.length + 1 < n + 1) :
    ∃ p k q x y t, s = p ++ .char '"' :: (q ++ .char '"' :: (x ++ .char ':' :: (y ++ t))) ∧
      MembersBefore lone d p ∧ Spells lone k q ∧ Blank x ∧ Blank y ∧ Caused lone d t e := by
  unfold Json.members at h
  split at h
  next s =>
    split at h
    next hstring =>
      cases h
      obtain ⟨f, left, rfl⟩ := string_malformed n hstring
      exact absurd rfl (he f left)
    next k t hstring =>
      obtain ⟨q, rfl, hk⟩ := string_sound hstring
      obtain ⟨w, hw, ht⟩ := skipBlanks_split t
      have ht_length := skipBlanks_length t
      split at h
      next u heq =>
        obtain ⟨x, hx, hu⟩ := skipBlanks_split u
        have hu_length := skipBlanks_length u
        simp only [heq, List.length_cons] at ht_length
        simp only [List.length_cons, List.length_append] at hn
        split at h
        next hv =>
          cases h
          exact ⟨[], k, q, w, x, _, by rw [ht, heq, ← hu]; rfl, .nil, hk, hw, hx,
            ih.value hv he (by omega)⟩
        next v y hv =>
          obtain ⟨a, ha, ha'⟩ := (sound lone n).value hv
          obtain ⟨z, hz, hy⟩ := skipBlanks_split y
          have hy_length := skipBlanks_length y
          split at h
          next => cases h
          next b hcomma =>
            obtain ⟨c, hc, hb⟩ := skipBlanks_split b
            have hb_length := skipBlanks_length b
            have ha_length := congrArg List.length ha
            simp only [List.length_append] at ha_length
            simp only [hcomma, List.length_cons] at hy_length
            obtain ⟨p, k', q', x', y', t', ht', hp, hrest⟩ := ih.members h he (by omega)
            exact ⟨_, k', q', x', y', t', by rw [ht, heq, hu, ha, hy, hcomma, hb, ht']; simp,
              .member hk hw hx ha' hz hc hp, hrest⟩
          next => cases h; exact absurd rfl (he _ _)
      next => cases h; exact absurd rfl (he _ _)
  next => cases h; exact absurd rfl (he _ _)

theorem halts (lone : Bool) (n : Nat) : Halts lone n := by
  -- Without a measure that suffices, a reader could stop for want of it.
  induction n with
  | zero =>
    constructor
    · intro d s e _ _ hn; omega
    · intro d s e _ _ hn; omega
    · intro d before s e _ _ hn; omega
  | succ n ih => exact ⟨ih.value_succ, ih.items_succ, ih.members_succ⟩

theorem Stuck.starts (h : Stuck d r e) : Starts r := by
  cases h with
  | list => exact starts_of rfl _
  | object => exact starts_of rfl _
  | integer k hf he hw hr => exact k.starts.append _

theorem Reaches.starts (h : Reaches lone d s d' r) (hstuck : Stuck d' r e) : Starts s := by
  cases h with
  | here => exact hstuck.starts
  | item hw hp h => exact starts_of rfl _
  | member hw hp hk hx hy h => exact starts_of rfl _

theorem ItemsBefore.starts (hp : ItemsBefore lone d p) (hs : Starts s) : Starts (p ++ s) := by
  cases hp with
  | nil => exact hs
  | item h hw hx hp => exact (h.starts.append _).append s

theorem MembersBefore.starts (hp : MembersBefore lone d p) (s : Text) :
    Starts (p ++ .char '"' :: s) := by
  cases hp with
  | nil => exact starts_of rfl s
  | member => exact starts_of rfl _

theorem value_stuck (h : Stuck d s e) (hn : 0 < n) : value lone n d s = .error e := by
  obtain ⟨n, rfl⟩ := Nat.exists_eq_succ_of_ne_zero (Nat.ne_of_gt hn)
  cases h with
  | list => rw [value]
  | object => rw [value]
  | integer k hf he hw hr => rw [value_numeral k hr, k.value?_tooManyDigits hf he hw]

theorem items_stuck (hp : ItemsBefore lone d p) (hs : Starts s)
    (h : ∀ n, 2 * s.length < n → value lone n d s = .error e) (n : Nat)
    (hn : 2 * (p ++ s).length + 1 < n) : items lone n d (p ++ s) = .error e := by
  induction hp generalizing n with
  | nil =>
    cases n with
    | zero => omega
    | succ n => exact items_error (h n (by simpa using hn))
  | @item v u w x p hu hw hx hp ih =>
    cases n with
    | zero => omega
    | succ n =>
      simp only [List.append_assoc, List.cons_append, List.length_append, List.length_cons] at hn ⊢
      have hends : Ends (w ++ .char ',' :: (x ++ (p ++ s))) := hw.ends (ends_cons rfl _)
      have hv := hu.read (n := n) hends (by
        simp only [List.length_append, List.length_cons]
        omega)
      rw [items_more hv (hw.before rfl _), hx.skip, (hp.starts hs).skip, ih n ?_]
      · rfl
      · simp only [List.length_append]
        omega

theorem members_skip (hk : Spells lone k q) (hw : Blank w) (hx : Blank x) (h : Writes lone d v u)
    (hy : Blank y) {z : Text} (hz : Blank z) (hs : skipBlanks s = s) (before : Members Value)
    (hn : 2 * (.char '"' :: (q ++ .char '"' :: (w ++ .char ':' :: (x ++ (u ++ (y ++ .char ',' ::
      (z ++ s))))))).length < n + 1) :
    members lone (n + 1) d before (.char '"' :: (q ++ .char '"' :: (w ++ .char ':' :: (x ++
      (u ++ (y ++ .char ',' :: (z ++ s))))))) = members lone n d (before.put k v) s := by
  simp only [List.length_cons, List.length_append] at hn
  obtain ⟨t, a, hstring, hcolon, hskip⟩ := hk.key (n := n) hw hx
    (h.starts.append (y ++ .char ',' :: (z ++ s))).skip (by omega)
  have hends : Ends (y ++ .char ',' :: (z ++ s)) := hy.ends (ends_cons rfl _)
  have hvalue := h.read (n := n) hends (by
    simp only [List.length_cons, List.length_append]
    omega)
  rw [← hskip] at hvalue
  rw [members_more hstring hcolon hvalue (hy.before rfl _), hz.skip, hs]

theorem members_stuck (hp : MembersBefore lone d p) (hk : Spells lone k q) (hx : Blank x)
    (hy : Blank y) (hs : Starts s)
    (h : ∀ n, 2 * s.length < n → value lone n d s = .error e) (before : Members Value) (n : Nat)
    (hn : 2 * (p ++ .char '"' :: (q ++ .char '"' :: (x ++ .char ':' :: (y ++ s)))).length + 1 < n) :
    members lone n d before
      (p ++ .char '"' :: (q ++ .char '"' :: (x ++ .char ':' :: (y ++ s)))) = .error e := by
  induction hp generalizing n before with
  | nil =>
    cases n with
    | zero => omega
    | succ n =>
      simp only [List.nil_append, List.length_append, List.length_cons] at hn
      obtain ⟨t, a, hstring, hcolon, hskip⟩ := hk.key (n := n) hx hy hs.skip (by omega)
      refine members_error hstring hcolon ?_
      rw [hskip]
      exact h n (by omega)
  | @member l o w a u b i p v hl hw ha hu hb hi hp ih =>
    cases n with
    | zero => omega
    | succ n =>
      have hstarts := hp.starts (q ++ .char '"' :: (x ++ .char ':' :: (y ++ s)))
      simp only [List.append_assoc, List.cons_append] at hn ⊢
      rw [members_skip hl hw ha hu hb hi hstarts.skip before (by omega)]
      refine ih _ _ ?_
      simp only [List.length_cons, List.length_append] at hn ⊢
      omega

theorem value_halts (h : Reaches lone d s d' r) (hstuck : Stuck d' r e) (n : Nat)
    (hn : 2 * s.length < n) : value lone n d s = .error e := by
  induction h generalizing n with
  | here => exact value_stuck hstuck (by omega)
  | @item d d' w p s r hw hp h ih =>
    cases n with
    | zero => omega
    | succ n =>
      have hs := h.starts hstuck
      have hstarts := hp.starts hs
      have hskip : skipBlanks (w ++ (p ++ s)) = p ++ s := (hw.skip _).trans hstarts.skip
      rw [value_items (by rw [hskip]; exact hstarts.bracket), hskip,
        items_stuck hp hs (ih hstuck) n ?_]
      · rfl
      · simp only [List.length_cons, List.length_append] at hn ⊢
        omega
  | @member d d' w p k q x y s r hw hp hk hx hy h ih =>
    cases n with
    | zero => omega
    | succ n =>
      have hs := h.starts hstuck
      have hstarts := hp.starts (q ++ .char '"' :: (x ++ .char ':' :: (y ++ s)))
      have hskip := (hw.skip _).trans hstarts.skip
      rw [value_members (by rw [hskip]; exact hstarts.brace), hskip,
        members_stuck hp hk hx hy hs (ih hstuck) [] n ?_]
      · rfl
      · simp only [List.length_cons, List.length_append] at hn ⊢
        omega

theorem Stuck.noFault (h : Stuck d r e) : e.NoFault := by
  rintro f left rfl
  cases h

/-- The failures of a text that are no faults of its form, and their causes. -/
theorem read_halts_iff (rules : Rules) (s : Text) (e : Failure) :
    (read rules s = .error e ∧ e.NoFault) ↔
      ∃ d r, Reaches rules.loneSurrogates rules.depth (skipBlanks s) d r ∧ Stuck d r e := by
  have hlength := skipBlanks_length s
  constructor
  · rintro ⟨h, he⟩
    unfold read at h
    split at h
    next hv =>
      cases h
      exact (halts _ _).value hv he (by omega)
    next =>
      split at h
      next => cases h
      next => cases h; exact absurd rfl (he _ _)
  · rintro ⟨d, r, hreach, hstuck⟩
    refine ⟨?_, hstuck.noFault⟩
    rw [read, value_halts hreach hstuck _ (by omega)]

end Terraload.Json
