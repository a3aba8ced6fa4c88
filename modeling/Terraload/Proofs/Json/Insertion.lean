import Terraload.Proofs.Json.Halting
import Terraload.Proofs.Schema
/-!
Putting members that are not asked for into the objects of a JSON text. What is read of the text
with them tells otherwise what is read of it without them, and a text beyond the limits of reading
stays beyond them.
-/
namespace Terraload.Json

def Strange (s : Schema) (d : Nat) (q : Text) : Prop :=
  ∃ ms, WritesMembers false d ms q ∧ ∀ m ∈ ms, s.member? m.1 = none

mutual

/-- The second text is the first one with members put in that are not asked for, where `d` levels of
nesting are left. The first one is any JSON text: it may be nested more deeply, its integers may be
of any length, and halves of pairs may stand alone in its strings. -/
inductive Inserts : Schema → Nat → Text → Text → Prop
  | word {s : Schema} {d : Nat} {w : String} {v : Value} (h : (w, v) ∈ words) :
      Inserts s d (text w) (text w)
  | number {s : Schema} {d : Nat} (k : Numeral) : Inserts s d k.text k.text
  | text {s : Schema} {d : Nat} {t p : Text} (h : Spells true t p) :
      Inserts s d (.char '"' :: (p ++ [.char '"'])) (.char '"' :: (p ++ [.char '"']))
  | nullable {s : Schema} {d : Nat} {u u' : Text} (h : Inserts s d u u') :
      Inserts (.nullable s) d u u'
  | noItems {s : Schema} {d : Nat} {w : Text} (hw : Blank w) :
      Inserts s d (.char '[' :: (w ++ [.char ']'])) (.char '[' :: (w ++ [.char ']']))
  | items {s : Schema} {d : Nat} {w u u' : Text} (hw : Blank w)
      (h : InsertsItems s.item (d - 1) u u') :
      Inserts s d (.char '[' :: (w ++ (u ++ [.char ']']))) (.char '[' :: (w ++ (u' ++ [.char ']'])))
  | noMembers {s : Schema} {d : Nat} {w : Text} (hw : Blank w) :
      Inserts s d (.char '{' :: (w ++ [.char '}'])) (.char '{' :: (w ++ [.char '}']))
  | fresh {s : Schema} {d : Nat} {w w' q : Text} (hw : Blank w) (hw' : Blank w')
      (hq : Strange s (d - 1) q) :
      Inserts s d (.char '{' :: (w ++ [.char '}'])) (.char '{' :: (w' ++ (q ++ [.char '}'])))
  | members {s : Schema} {d : Nat} {w w' u u' : Text} (hw : Blank w) (hw' : Blank w')
      (h : InsertsMembers s (d - 1) u u') :
      Inserts s d (.char '{' :: (w ++ (u ++ [.char '}'])))
        (.char '{' :: (w' ++ (u' ++ [.char '}'])))

inductive InsertsItems : Schema → Nat → Text → Text → Prop
  | last {s : Schema} {d : Nat} {u u' w : Text} (h : Inserts s d u u') (hw : Blank w) :
      InsertsItems s d (u ++ w) (u' ++ w)
  | more {s : Schema} {d : Nat} {u u' w x r r' : Text} (h : Inserts s d u u') (hw : Blank w)
      (hx : Blank x) (hr : InsertsItems s d r r') :
      InsertsItems s d (u ++ (w ++ .char ',' :: (x ++ r))) (u' ++ (w ++ .char ',' :: (x ++ r')))

inductive InsertsMembers : Schema → Nat → Text → Text → Prop
  | last {s : Schema} {d : Nat} {k p w x u u' y : Text} (hk : Spells true k p) (hw : Blank w)
      (hx : Blank x) (h : Inserts (s.part k) d u u') (hy : Blank y) :
      InsertsMembers s d
        (.char '"' :: (p ++ .char '"' :: (w ++ .char ':' :: (x ++ (u ++ y)))))
        (.char '"' :: (p ++ .char '"' :: (w ++ .char ':' :: (x ++ (u' ++ y)))))
  | lastThen {s : Schema} {d : Nat} {k p w x u u' y y' z q : Text} (hk : Spells true k p)
      (hw : Blank w) (hx : Blank x) (h : Inserts (s.part k) d u u') (hy : Blank y) (hy' : Blank y')
      (hz : Blank z) (hq : Strange s d q) :
      InsertsMembers s d
        (.char '"' :: (p ++ .char '"' :: (w ++ .char ':' :: (x ++ (u ++ y)))))
        (.char '"' :: (p ++ .char '"' :: (w ++ .char ':' :: (x ++ (u' ++ (y' ++ .char ',' ::
          (z ++ q)))))))
  | more {s : Schema} {d : Nat} {k p w x u u' y y' z z' r r' : Text} (hk : Spells true k p)
      (hw : Blank w) (hx : Blank x) (h : Inserts (s.part k) d u u') (hy : Blank y) (hy' : Blank y')
      (hz : Blank z) (hz' : Blank z') (hr : InsertsMembers s d r r') :
      InsertsMembers s d
        (.char '"' :: (p ++ .char '"' :: (w ++ .char ':' :: (x ++ (u ++ (y ++ .char ',' ::
          (z ++ r)))))))
        (.char '"' :: (p ++ .char '"' :: (w ++ .char ':' :: (x ++ (u' ++ (y' ++ .char ',' ::
          (z' ++ r')))))))
  | before {s : Schema} {d : Nat} {q z r r' : Text} (hq : Strange s d q) (hz : Blank z)
      (hr : InsertsMembers s d r r') : InsertsMembers s d r (q ++ .char ',' :: (z ++ r'))

end

def InsertsText (s : Schema) (depth : Nat) (t t' : Text) : Prop :=
  ∃ w u u' x, Blank w ∧ Inserts s depth u u' ∧ Blank x ∧ t = w ++ (u ++ x) ∧ t' = w ++ (u' ++ x)

variable {s : Schema} {n n' d : Nat} {t u u' p w x y z q r r' k : Text} {e : Failure} {v v' : Value}
  {ms ms' more : List (Text × Value)}

theorem Strange.starts (h : Strange s d q) : Starts q := by
  obtain ⟨ms, hq, -⟩ := h
  exact hq.starts

theorem Inserts.starts : ∀ {s : Schema} {u u' : Text}, Inserts s d u u' → Starts u ∧ Starts u'
  | _, _, _, .word h => ⟨words_starts h, words_starts h⟩
  | _, _, _, .number k => ⟨k.starts, k.starts⟩
  | _, _, _, .nullable h => h.starts
  | _, _, _, .text _ => ⟨starts_of rfl _, starts_of rfl _⟩
  | _, _, _, .noItems _ => ⟨starts_of rfl _, starts_of rfl _⟩
  | _, _, _, .items _ _ => ⟨starts_of rfl _, starts_of rfl _⟩
  | _, _, _, .noMembers _ => ⟨starts_of rfl _, starts_of rfl _⟩
  | _, _, _, .fresh _ _ _ => ⟨starts_of rfl _, starts_of rfl _⟩
  | _, _, _, .members _ _ _ => ⟨starts_of rfl _, starts_of rfl _⟩

theorem InsertsItems.starts (h : InsertsItems s d u u') : Starts u ∧ Starts u' := by
  cases h with
  | last h hw => exact ⟨h.starts.1.append _, h.starts.2.append _⟩
  | more h hw hx hr => exact ⟨h.starts.1.append _, h.starts.2.append _⟩

theorem InsertsMembers.starts : ∀ {u u' : Text}, InsertsMembers s d u u' → Starts u ∧ Starts u'
  | _, _, .last .. => ⟨starts_of rfl _, starts_of rfl _⟩
  | _, _, .lastThen .. => ⟨starts_of rfl _, starts_of rfl _⟩
  | _, _, .more .. => ⟨starts_of rfl _, starts_of rfl _⟩
  | _, _, .before hq _ hr => ⟨hr.starts.1, hq.starts.append _⟩

theorem string_plain_error {lone : Bool} {start : Text} {c : CodePoint} (hquote : c ≠ .char '"')
    (hslash : c ≠ .char '\\') (hcontrol : ¬ c.val < 32) (h : string lone start n r = .error e) :
    string lone start (n + 1) (c :: r) = .error e := by
  rw [string.eq_5 lone start n c r hquote hslash, if_neg hcontrol, h]

theorem string_escaped_error {lone : Bool} {start : Text} {c : CodePoint}
    (he : escaped lone start r = .ok (c, w)) (h : string lone start n w = .error e) :
    string lone start (n + 1) (.char '\\' :: r) = .error e := by
  simp only [string, he, h]

def Refused (w : Text) : Prop := ∀ (start r : Text) (n : Nat), w.length < n →
  ∃ e, string false start n (w ++ .char '"' :: r) = .error e

/-- A failure behind a code point that was read is one of the whole. -/
theorem Refused.behind (h : Refused w) (hx : x ≠ [])
    (hstep : ∀ start r n e, string false start n (w ++ .char '"' :: r) = .error e →
      string false start (n + 1) (x ++ (w ++ .char '"' :: r)) = .error e) : Refused (x ++ w) := by
  intro start r n hn
  have hlength := List.length_pos_iff.mpr hx
  rw [List.length_append] at hn
  cases n with
  | zero => omega
  | succ n =>
    obtain ⟨e, he⟩ := h start r n (by omega)
    exact ⟨e, by rw [List.append_assoc]; exact hstep start r n e he⟩

theorem refused_lone {u : Nat} (hu : WritesUnit u p) (hnext : High u → ¬ LowNext w)
    (hlone : 0xD800 ≤ u ∧ u < 0xE000) : Refused (.char '\\' :: .char 'u' :: (p ++ w)) := by
  intro start r n hn
  cases n with
  | zero => omega
  | succ n =>
    have hne : w ++ .char '"' :: r ≠ [] := by simp
    have hescaped : escaped false start (.char 'u' :: (p ++ (w ++ .char '"' :: r))) =
        fail .badUnicodeEscape (.char 'u' :: (p ++ (w ++ .char '"' :: r))) := by
      simp [escaped, hu.unit? hne, pair?_eq_none hnext, hlone]
    exact ⟨_, by simp only [List.cons_append, List.append_assoc, string, hescaped]; rfl⟩

/-- A spelling where halves of pairs may stand alone is a strict one, unless there are some. -/
theorem Spells.strict (h : Spells true t w) : Spells false t w ∨ Refused w := by
  induction h with
  | nil => exact .inl .nil
  | @plain c _ _ hquote hslash hcontrol _ ih =>
    exact ih.imp (.plain hquote hslash hcontrol) fun h => h.behind (x := [c]) (by simp)
      fun start r n e he => string_plain_error hquote hslash hcontrol he
  | @short c _ _ _ hc _ ih =>
    exact ih.imp (.short hc) fun h => h.behind (x := [.char '\\', c]) (by simp)
      fun start r n e he => string_escaped_error (escaped_short hc) he
  | @pair _ _ p q _ w hu hv hhigh hlow _ ih =>
    refine ih.imp (.pair hu hv hhigh hlow) fun h => ?_
    have hrefused := h.behind (x := .char '\\' :: .char 'u' :: (p ++ .char '\\' :: .char 'u' :: q))
      (by simp) fun start r n e he => by
        have hne : w ++ .char '"' :: r ≠ [] := by simp
        simpa using string_escaped_error (escaped_pair hu hv hhigh hlow hne) he
    simpa using hrefused
  | @unit u p _ w hu hnext _ _ ih =>
    by_cases hlone : 0xD800 ≤ u ∧ u < 0xE000
    · exact .inr (refused_lone hu hnext hlone)
    refine ih.imp (.unit hu hnext (.inr hlone)) fun h => ?_
    exact h.behind (x := .char '\\' :: .char 'u' :: p) (by simp) fun start r n e he => by
      simpa using string_escaped_error (escaped_unit hu hnext (.inr hlone)) he

def Matched {α : Type} (R : α → α → Prop) (r r' : Text) (a b : Read α) : Prop :=
  (∃ x y, a = .ok (x, r) ∧ b = .ok (y, r') ∧ R x y) ∨ ∃ e e', a = .error e ∧ b = .error e'

theorem Matched.map {α β : Type} {R : α → α → Prop} {R' : β → β → Prop} {a b : Read α}
    (h : Matched R r r' a b) (f g : α → β) (hf : ∀ {x y}, R x y → R' (f x) (g y)) :
    Matched R' r r' (a.map fun x => (f x.1, x.2)) (b.map fun x => (g x.1, x.2)) := by
  obtain ⟨x, y, rfl, rfl, hxy⟩ | ⟨e, e', rfl, rfl⟩ := h
  · exact .inl ⟨f x, g y, rfl, rfl, hf hxy⟩
  · exact .inr ⟨e, e', rfl, rfl⟩

def AlikeValue (s : Schema) (d : Nat) (u u' : Text) : Prop :=
  ∀ ⦃n n' : Nat⦄ ⦃r r' : Text⦄, Ends r → Ends r' → 2 * (u ++ r).length < n →
    2 * (u' ++ r').length < n' →
    Matched (Retells .others s) r r' (value false n d (u ++ r)) (value false n' d (u' ++ r'))

def AlikeItems (s : Schema) (d : Nat) (u u' : Text) : Prop :=
  ∀ ⦃n n' : Nat⦄ ⦃r r' : Text⦄, 2 * (u ++ .char ']' :: r).length + 1 < n →
    2 * (u' ++ .char ']' :: r').length + 1 < n' →
    Matched (RetellsItems .others s) r r' (items false n d (u ++ .char ']' :: r))
      (items false n' d (u' ++ .char ']' :: r'))

def AlikeMembers (s : Schema) (d : Nat) (u u' : Text) : Prop :=
  ∀ ⦃n n' : Nat⦄ ⦃ms ms' : Members Value⦄ ⦃r r' : Text⦄, RetellsMembers .others s ms ms' →
    2 * (u ++ .char '}' :: r).length + 1 < n → 2 * (u' ++ .char '}' :: r').length + 1 < n' →
    Matched (RetellsMembers .others s) r r' (members false n d ms (u ++ .char '}' :: r))
      (members false n' d ms' (u' ++ .char '}' :: r'))

/-- Readers of some measure have more of it than none. -/
theorem AlikeValue.of_succ
    (h : ∀ {n n' : Nat} {r r' : Text}, Ends r → Ends r' → 2 * (u ++ r).length < n + 1 →
      2 * (u' ++ r').length < n' + 1 → Matched (Retells .others s) r r'
        (value false (n + 1) d (u ++ r)) (value false (n' + 1) d (u' ++ r'))) :
    AlikeValue s d u u' := by
  intro n n' r r' hr hr' hn hn'
  obtain ⟨n, rfl⟩ := Nat.exists_eq_succ_of_ne_zero (Nat.ne_zero_of_lt hn)
  obtain ⟨n', rfl⟩ := Nat.exists_eq_succ_of_ne_zero (Nat.ne_zero_of_lt hn')
  exact h hr hr' hn hn'

/-- Where no level of nesting is left, neither of two lists or objects is read. -/
theorem alike_tooDeep {c : Char} (hc : c = '[' ∨ c = '{') :
    AlikeValue s 0 (.char c :: u) (.char c :: u') := by
  refine AlikeValue.of_succ fun _ _ _ _ => .inr ⟨.tooDeep, .tooDeep, ?_, ?_⟩ <;>
    obtain rfl | rfl := hc <;> rw [List.cons_append, value]

theorem alike_word {w : String} (h : (w, v) ∈ words) : AlikeValue s d (text w) (text w) :=
  AlikeValue.of_succ fun _ _ _ _ => .inl ⟨v, v, value_word h _, value_word h _, .same s v⟩

theorem alike_number (k : Numeral) : AlikeValue s d k.text k.text := by
  refine AlikeValue.of_succ fun {n n' r r'} hr hr' _ _ => ?_
  rw [value_numeral k hr, value_numeral k hr']
  cases k.value? with
  | none => exact .inr ⟨_, _, rfl, rfl⟩
  | some x =>
    cases x with
    | error e => exact .inr ⟨e, e, rfl, rfl⟩
    | ok v => exact .inl ⟨v, v, rfl, rfl, .same s v⟩

theorem alike_text (h : Spells true t p) :
    AlikeValue s d (.char '"' :: (p ++ [.char '"'])) (.char '"' :: (p ++ [.char '"'])) := by
  refine AlikeValue.of_succ fun {n n' r r'} _ _ hn hn' => ?_
  simp only [List.cons_append, List.append_assoc, List.length_cons, List.length_append,
    List.nil_append] at hn hn' ⊢
  obtain hstrict | hrefused := h.strict
  · exact .inl ⟨_, _, value_text (hstrict.string _ _ (by omega)),
      value_text (hstrict.string _ _ (by omega)), .same s _⟩
  · obtain ⟨e, he⟩ := hrefused (p ++ .char '"' :: r) r n (by omega)
    obtain ⟨e', he'⟩ := hrefused (p ++ .char '"' :: r') r' n' (by omega)
    exact .inr ⟨e, e', by rw [value, he], by rw [value, he']⟩

theorem AlikeValue.nullable (h : AlikeValue s d u u') : AlikeValue (.nullable s) d u u' := by
  intro n n' r r' hr hr' hn hn'
  obtain ⟨v, w, hv, hw, hvw⟩ | hfailed := h hr hr' hn hn'
  · exact .inl ⟨v, w, hv, hw, .nullable hvw⟩
  · exact .inr hfailed

theorem alike_noItems (hw : Blank w) :
    AlikeValue s d (.char '[' :: (w ++ [.char ']'])) (.char '[' :: (w ++ [.char ']'])) := by
  cases d with
  | zero => exact alike_tooDeep (.inl rfl)
  | succ d =>
    refine AlikeValue.of_succ fun {n n' r r'} _ _ _ _ =>
      .inl ⟨.list [], .list [], ?_, ?_, .same s _⟩
    · exact value_noItems (by simpa using hw.before rfl r)
    · exact value_noItems (by simpa using hw.before rfl r')

theorem AlikeItems.value (h : AlikeItems s.item (d - 1) u u') (hw : Blank w) (hu : Starts u)
    (hu' : Starts u') :
    AlikeValue s d (.char '[' :: (w ++ (u ++ [.char ']'])))
      (.char '[' :: (w ++ (u' ++ [.char ']']))) := by
  cases d with
  | zero => exact alike_tooDeep (.inl rfl)
  | succ d =>
    refine AlikeValue.of_succ fun {n n' r r'} _ _ hn hn' => ?_
    have hstarts : Starts (u ++ .char ']' :: r) := hu.append _
    have hstarts' : Starts (u' ++ .char ']' :: r') := hu'.append _
    have hskip := (hw.skip _).trans hstarts.skip
    have hskip' := (hw.skip _).trans hstarts'.skip
    simp only [List.cons_append, List.append_assoc, List.length_cons, List.length_append,
      List.nil_append] at hn hn' ⊢
    rw [value_items (by rw [hskip]; exact hstarts.bracket), hskip,
      value_items (by rw [hskip']; exact hstarts'.bracket), hskip']
    refine (h ?_ ?_).map Value.list Value.list Retells.of_items
    · simp only [List.length_append, List.length_cons]
      omega
    · simp only [List.length_append, List.length_cons]
      omega

theorem alike_noMembers (hw : Blank w) :
    AlikeValue s d (.char '{' :: (w ++ [.char '}'])) (.char '{' :: (w ++ [.char '}'])) := by
  cases d with
  | zero => exact alike_tooDeep (.inr rfl)
  | succ d =>
    refine AlikeValue.of_succ fun {n n' r r'} _ _ _ _ =>
      .inl ⟨.object [], .object [], ?_, ?_, .same s _⟩
    · exact value_noMembers (by simpa using hw.before rfl r)
    · exact value_noMembers (by simpa using hw.before rfl r')

theorem AlikeMembers.value (h : AlikeMembers s (d - 1) u u') (hw : Blank w) (hx : Blank x)
    (hu : Starts u) (hu' : Starts u') :
    AlikeValue s d (.char '{' :: (w ++ (u ++ [.char '}'])))
      (.char '{' :: (x ++ (u' ++ [.char '}']))) := by
  cases d with
  | zero => exact alike_tooDeep (.inr rfl)
  | succ d =>
    refine AlikeValue.of_succ fun {n n' r r'} _ _ hn hn' => ?_
    have hstarts : Starts (u ++ .char '}' :: r) := hu.append _
    have hstarts' : Starts (u' ++ .char '}' :: r') := hu'.append _
    have hskip := (hw.skip _).trans hstarts.skip
    have hskip' := (hx.skip _).trans hstarts'.skip
    simp only [List.cons_append, List.append_assoc, List.length_cons, List.length_append,
      List.nil_append] at hn hn' ⊢
    rw [value_members (by rw [hskip]; exact hstarts.brace), hskip,
      value_members (by rw [hskip']; exact hstarts'.brace), hskip']
    refine (h .nil ?_ ?_).map Value.object Value.object Retells.of_members
    · simp only [List.length_append, List.length_cons]
      omega
    · simp only [List.length_append, List.length_cons]
      omega

theorem members_last_of_writes {before : Members Value} (h : WritesMembers false d more q)
    (hn : 2 * (q ++ .char '}' :: r).length + 1 < n) :
    members false n d before (q ++ .char '}' :: r) = .ok (before.putAll more, r) :=
  ((complete false n).members (d := d) h hn).resolve_right fun hd => absurd hd.1 (Nat.lt_irrefl d)

/-- Members with a comma behind them are read before the ones that follow. -/
theorem members_of_writes (h : WritesMembers false d more q) (hz : Blank z) (ht : Starts t)
    (before : Members Value) (hn : 2 * (q ++ .char ',' :: (z ++ t)).length + 1 < n) :
    ∃ m, 2 * t.length + 1 < m ∧ members false n d before (q ++ .char ',' :: (z ++ t)) =
      members false m d (before.putAll more) t := by
  induction more generalizing q n before with
  | nil => cases h
  | cons m more ih =>
    cases n with
    | zero => omega
    | succ n =>
      cases h with
      | last hk hw hx h hy =>
        simp only [List.cons_append, List.append_assoc] at hn ⊢
        refine ⟨n, ?_, members_skip hk hw hx h hy hz ht.skip before (by omega)⟩
        simp only [List.length_cons, List.length_append] at hn
        omega
      | more hk hw hx h hy hy' hr =>
        simp only [List.cons_append, List.append_assoc] at hn ⊢
        rw [members_skip hk hw hx h hy hy' (hr.starts.append _).skip before (by omega)]
        refine ih hr _ ?_
        simp only [List.length_cons, List.length_append] at hn ⊢
        omega

theorem Strange.value (hq : Strange s (d - 1) q) (hw : Blank w) (hx : Blank x) :
    AlikeValue s d (.char '{' :: (w ++ [.char '}'])) (.char '{' :: (x ++ (q ++ [.char '}']))) := by
  cases d with
  | zero => exact alike_tooDeep (.inr rfl)
  | succ d =>
    obtain ⟨ms, hwrites, hms⟩ := hq
    refine AlikeValue.of_succ fun {n n' r r'} _ _ _ hn => .inl ⟨.object [], .object _, ?_, ?_,
      .of_members (RetellsMembers.nil.putAll_right hms)⟩
    · exact value_noMembers (by simpa using hw.before rfl r)
    · have hstarts : Starts (q ++ .char '}' :: r') := hwrites.starts.append _
      have hskip := (hx.skip _).trans hstarts.skip
      simp only [List.cons_append, List.append_assoc, List.length_cons, List.length_append,
        List.nil_append] at hn ⊢
      have hread : members false n' d [] (q ++ .char '}' :: r') = .ok (Members.putAll [] ms, r') :=
        members_last_of_writes hwrites (by
          simp only [List.length_append, List.length_cons]
          omega)
      rw [value_members (by rw [hskip]; exact hstarts.brace), hskip]
      exact congrArg (Except.map fun x => (Value.object x.1, x.2)) hread

theorem AlikeItems.of_succ
    (h : ∀ {n n' : Nat} {r r' : Text}, 2 * (u ++ .char ']' :: r).length < n →
      2 * (u' ++ .char ']' :: r').length < n' → Matched (RetellsItems .others s) r r'
        (items false (n + 1) d (u ++ .char ']' :: r))
        (items false (n' + 1) d (u' ++ .char ']' :: r'))) :
    AlikeItems s d u u' := by
  intro n n' r r' hn hn'
  obtain ⟨n, rfl⟩ := Nat.exists_eq_succ_of_ne_zero (Nat.ne_zero_of_lt hn)
  obtain ⟨n', rfl⟩ := Nat.exists_eq_succ_of_ne_zero (Nat.ne_zero_of_lt hn')
  exact h (Nat.lt_of_succ_lt_succ hn) (Nat.lt_of_succ_lt_succ hn')

theorem AlikeMembers.of_succ
    (h : ∀ {n n' : Nat} {ms ms' : Members Value} {r r' : Text}, RetellsMembers .others s ms ms' →
      2 * (u ++ .char '}' :: r).length < n → 2 * (u' ++ .char '}' :: r').length < n' →
      Matched (RetellsMembers .others s) r r' (members false (n + 1) d ms (u ++ .char '}' :: r))
        (members false (n' + 1) d ms' (u' ++ .char '}' :: r'))) :
    AlikeMembers s d u u' := by
  intro n n' ms ms' r r' hms hn hn'
  obtain ⟨n, rfl⟩ := Nat.exists_eq_succ_of_ne_zero (Nat.ne_zero_of_lt hn)
  obtain ⟨n', rfl⟩ := Nat.exists_eq_succ_of_ne_zero (Nat.ne_zero_of_lt hn')
  exact h hms (Nat.lt_of_succ_lt_succ hn) (Nat.lt_of_succ_lt_succ hn')

theorem AlikeValue.last (h : AlikeValue s d u u') (hw : Blank w) :
    AlikeItems s d (u ++ w) (u' ++ w) := by
  refine AlikeItems.of_succ fun {n n' r r'} hn hn' => ?_
  rw [List.append_assoc] at hn hn' ⊢
  rw [List.append_assoc]
  obtain ⟨v, v', hv, hv', hvalue⟩ | ⟨e, e', he, he'⟩ :=
    h (hw.ends (ends_cons rfl r)) (hw.ends (ends_cons rfl r')) hn hn'
  · exact .inl ⟨[v], [v'], items_last hv (hw.before rfl r), items_last hv' (hw.before rfl r'),
      .cons hvalue .nil⟩
  · exact .inr ⟨e, e', items_error he, items_error he'⟩

theorem AlikeValue.next {z' : Text} (h : AlikeValue s d u u') (hw : Blank w) (hx : Blank x)
    (hz : AlikeItems s d z z') (hstarts : Starts z) (hstarts' : Starts z') :
    AlikeItems s d (u ++ (w ++ .char ',' :: (x ++ z))) (u' ++ (w ++ .char ',' :: (x ++ z'))) := by
  refine AlikeItems.of_succ fun {n n' r r'} hn hn' => ?_
  simp only [List.append_assoc, List.cons_append] at hn hn' ⊢
  obtain ⟨v, v', hv, hv', hvalue⟩ | ⟨e, e', he, he'⟩ :=
    h (hw.ends (ends_cons rfl _)) (hw.ends (ends_cons rfl _)) hn hn'
  · rw [items_more hv (hw.before rfl _), hx.skip, (hstarts.append _).skip,
      items_more hv' (hw.before rfl _), hx.skip, (hstarts'.append _).skip]
    simp only [List.length_append, List.length_cons] at hn hn'
    refine (hz ?_ ?_).map (v :: ·) (v' :: ·) (.cons hvalue)
    · simp only [List.length_append, List.length_cons]
      omega
    · simp only [List.length_append, List.length_cons]
      omega
  · exact .inr ⟨e, e', items_error he, items_error he'⟩

def afterMember (n d : Nat) (ms : Members Value) (s : Text) : Read (Members Value) :=
  match skipBlanks s with
  | .char '}' :: r => .ok (ms, r)
  | .char ',' :: r => members false n d ms (skipBlanks r)
  | r => fail .expectedComma r

theorem members_eq_afterMember {a : Text} {ms : Members Value}
    (hk : string false t n t = .ok (k, u)) (hu : skipBlanks u = .char ':' :: a)
    (hv : value false n d (skipBlanks a) = .ok (v, w)) :
    members false (n + 1) d ms (.char '"' :: t) = afterMember n d (ms.put k v) w := by
  rw [members, hk]
  simp only [hu, hv]
  rfl

theorem afterMember_last (hy : Blank y) (ms : Members Value) (r : Text) :
    afterMember n d ms (y ++ .char '}' :: r) = .ok (ms, r) := by
  have hskip : skipBlanks (y ++ .char '}' :: r) = .char '}' :: r := hy.before rfl r
  simp only [afterMember, hskip]

theorem afterMember_more (hy : Blank y) (hz : Blank z) (ht : Starts t) (ms : Members Value) :
    afterMember n d ms (y ++ .char ',' :: (z ++ t)) = members false n d ms t := by
  have hskip : skipBlanks (y ++ .char ',' :: (z ++ t)) = .char ',' :: (z ++ t) := hy.before rfl _
  simp only [afterMember, hskip, hz.skip, ht.skip]

theorem members_string_error {ms : Members Value} (hk : string false t n t = .error e) :
    members false (n + 1) d ms (.char '"' :: t) = .error e := by
  rw [members, hk]

/-- The first member is read alike in both texts. -/
theorem AlikeValue.member {ms ms' : Members Value} (h : AlikeValue (s.part k) d u u')
    (hk : Spells true k p) (hw : Blank w) (hx : Blank x) (hu : Starts u) (hu' : Starts u')
    (hr : Ends r) (hr' : Ends r')
    (hn : 2 * (.char '"' :: (p ++ .char '"' :: (w ++ .char ':' :: (x ++ (u ++ r))))).length < n)
    (hn' : 2 * (.char '"' :: (p ++ .char '"' :: (w ++ .char ':' :: (x ++ (u' ++ r'))))).length < n')
    (hms : RetellsMembers .others s ms ms') :
    (∃ ns ns', RetellsMembers .others s ns ns' ∧
      members false (n + 1) d ms (.char '"' :: (p ++ .char '"' :: (w ++ .char ':' :: (x ++
        (u ++ r))))) = afterMember n d ns r ∧
      members false (n' + 1) d ms' (.char '"' :: (p ++ .char '"' :: (w ++ .char ':' :: (x ++
        (u' ++ r'))))) = afterMember n' d ns' r') ∨
    ∃ e e', members false (n + 1) d ms (.char '"' :: (p ++ .char '"' :: (w ++ .char ':' :: (x ++
        (u ++ r))))) = .error e ∧
      members false (n' + 1) d ms' (.char '"' :: (p ++ .char '"' :: (w ++ .char ':' :: (x ++
        (u' ++ r'))))) = .error e' := by
  simp only [List.length_cons, List.length_append] at hn hn'
  obtain hstrict | hrefused := hk.strict
  · obtain ⟨t, a, hstring, hcolon, hskip⟩ :=
      hstrict.key (n := n) hw hx (hu.append r).skip (by omega)
    obtain ⟨t', a', hstring', hcolon', hskip'⟩ :=
      hstrict.key (n := n') hw hx (hu'.append r').skip (by omega)
    have hvalue : Matched (Retells .others (s.part k)) r r' (value false n d (u ++ r))
        (value false n' d (u' ++ r')) :=
      h hr hr' (by rw [List.length_append]; omega) (by rw [List.length_append]; omega)
    rw [← hskip, ← hskip'] at hvalue
    obtain ⟨v, v', hv, hv', hvalue⟩ | ⟨e, e', he, he'⟩ := hvalue
    · exact .inl ⟨_, _, hms.put hvalue, members_eq_afterMember hstring hcolon hv,
        members_eq_afterMember hstring' hcolon' hv'⟩
    · exact .inr ⟨e, e', members_error hstring hcolon he, members_error hstring' hcolon' he'⟩
  · obtain ⟨e, he⟩ := hrefused _ (w ++ .char ':' :: (x ++ (u ++ r))) n (by omega)
    obtain ⟨e', he'⟩ := hrefused _ (w ++ .char ':' :: (x ++ (u' ++ r'))) n' (by omega)
    exact .inr ⟨e, e', members_string_error he, members_string_error he'⟩

theorem AlikeValue.lastMember (h : AlikeValue (s.part k) d u u') (hk : Spells true k p)
    (hw : Blank w) (hx : Blank x) (hu : Starts u) (hu' : Starts u') (hy : Blank y) :
    AlikeMembers s d
      (.char '"' :: (p ++ .char '"' :: (w ++ .char ':' :: (x ++ (u ++ y)))))
      (.char '"' :: (p ++ .char '"' :: (w ++ .char ':' :: (x ++ (u' ++ y))))) := by
  refine AlikeMembers.of_succ fun {n n' ms ms' r r'} hms hn hn' => ?_
  simp only [List.append_assoc, List.cons_append] at hn hn' ⊢
  obtain ⟨ns, ns', hns, hread, hread'⟩ | hfailed := h.member hk hw hx hu hu'
    (hy.ends (ends_cons rfl r)) (hy.ends (ends_cons rfl r')) hn hn' hms
  · rw [hread, hread', afterMember_last hy, afterMember_last hy]
    exact .inl ⟨ns, ns', rfl, rfl, hns⟩
  · exact .inr hfailed

/-- Behind the last member, others are put in. -/
theorem AlikeValue.lastMemberThen {y' : Text} (h : AlikeValue (s.part k) d u u')
    (hk : Spells true k p) (hw : Blank w) (hx : Blank x) (hu : Starts u) (hu' : Starts u')
    (hy : Blank y) (hy' : Blank y') (hz : Blank z) (hq : Strange s d q) :
    AlikeMembers s d
      (.char '"' :: (p ++ .char '"' :: (w ++ .char ':' :: (x ++ (u ++ y)))))
      (.char '"' :: (p ++ .char '"' :: (w ++ .char ':' :: (x ++ (u' ++ (y' ++ .char ',' ::
        (z ++ q))))))) := by
  obtain ⟨more, hwrites, hmore⟩ := hq
  refine AlikeMembers.of_succ fun {n n' ms ms' r r'} hms hn hn' => ?_
  simp only [List.append_assoc, List.cons_append] at hn hn' ⊢
  obtain ⟨ns, ns', hns, hread, hread'⟩ | hfailed := h.member hk hw hx hu hu'
    (hy.ends (ends_cons rfl r)) (hy'.ends (ends_cons rfl _)) hn hn' hms
  · rw [hread, hread', afterMember_last hy, afterMember_more hy' hz (hwrites.starts.append _),
      members_last_of_writes hwrites]
    · exact .inl ⟨ns, _, rfl, rfl, hns.putAll_right hmore⟩
    · simp only [List.length_append, List.length_cons] at hn' ⊢
      omega
  · exact .inr hfailed

theorem AlikeMembers.next {y' z' : Text} (hr : AlikeMembers s d r r')
    (h : AlikeValue (s.part k) d u u') (hk : Spells true k p) (hw : Blank w) (hx : Blank x)
    (hu : Starts u) (hu' : Starts u') (hy : Blank y) (hy' : Blank y') (hz : Blank z)
    (hz' : Blank z') (hstarts : Starts r) (hstarts' : Starts r') :
    AlikeMembers s d
      (.char '"' :: (p ++ .char '"' :: (w ++ .char ':' :: (x ++ (u ++ (y ++ .char ',' ::
        (z ++ r)))))))
      (.char '"' :: (p ++ .char '"' :: (w ++ .char ':' :: (x ++ (u' ++ (y' ++ .char ',' ::
        (z' ++ r'))))))) := by
  refine AlikeMembers.of_succ fun {n n' ms ms' t t'} hms hn hn' => ?_
  simp only [List.append_assoc, List.cons_append] at hn hn' ⊢
  obtain ⟨ns, ns', hns, hread, hread'⟩ | hfailed := h.member hk hw hx hu hu'
    (hy.ends (ends_cons rfl _)) (hy'.ends (ends_cons rfl _)) hn hn' hms
  · rw [hread, hread', afterMember_more hy hz (hstarts.append _),
      afterMember_more hy' hz' (hstarts'.append _)]
    refine hr hns ?_ ?_
    · simp only [List.length_append, List.length_cons] at hn ⊢
      omega
    · simp only [List.length_append, List.length_cons] at hn' ⊢
      omega
  · exact .inr hfailed

theorem AlikeMembers.before (hr : AlikeMembers s d r r') (hq : Strange s d q) (hz : Blank z)
    (hstarts : Starts r') : AlikeMembers s d r (q ++ .char ',' :: (z ++ r')) := by
  obtain ⟨more, hwrites, hmore⟩ := hq
  intro n n' ms ms' t t' hms hn hn'
  simp only [List.append_assoc, List.cons_append] at hn' ⊢
  obtain ⟨m, hm, hread⟩ := members_of_writes hwrites hz (hstarts.append _) ms' hn'
  rw [hread]
  exact hr (hms.putAll_right hmore) hn hm

mutual

theorem Inserts.alike : ∀ {s : Schema} {d : Nat} {u u' : Text}, Inserts s d u u' →
    AlikeValue s d u u'
  | _, _, _, _, .word h => alike_word h
  | _, _, _, _, .number k => alike_number k
  | _, _, _, _, .text h => alike_text h
  | _, _, _, _, .nullable h => h.alike.nullable
  | _, _, _, _, .noItems hw => alike_noItems hw
  | _, _, _, _, .items hw h => h.alike.value hw h.starts.1 h.starts.2
  | _, _, _, _, .noMembers hw => alike_noMembers hw
  | _, _, _, _, .fresh hw hw' hq => hq.value hw hw'
  | _, _, _, _, .members hw hw' h => h.alike.value hw hw' h.starts.1 h.starts.2

theorem InsertsItems.alike : ∀ {s : Schema} {d : Nat} {u u' : Text}, InsertsItems s d u u' →
    AlikeItems s d u u'
  | _, _, _, _, .last h hw => h.alike.last hw
  | _, _, _, _, .more h hw hx hr => h.alike.next hw hx hr.alike hr.starts.1 hr.starts.2

theorem InsertsMembers.alike : ∀ {s : Schema} {d : Nat} {u u' : Text}, InsertsMembers s d u u' →
    AlikeMembers s d u u'
  | _, _, _, _, .last hk hw hx h hy => h.alike.lastMember hk hw hx h.starts.1 h.starts.2 hy
  | _, _, _, _, .lastThen hk hw hx h hy hy' hz hq =>
    h.alike.lastMemberThen hk hw hx h.starts.1 h.starts.2 hy hy' hz hq
  | _, _, _, _, .more hk hw hx h hy hy' hz hz' hr =>
    hr.alike.next h.alike hk hw hx h.starts.1 h.starts.2 hy hy' hz hz' hr.starts.1 hr.starts.2
  | _, _, _, _, .before hq hz hr => hr.alike.before hq hz hr.starts.2

end

/-- Of a text that members were put into, what is read tells otherwise what is read of the text
without them; and neither of the two is read, or both are. -/
theorem read_inserted {t' : Text} (h : InsertsText s Rules.strict.depth t t') :
    (∃ v v', read .strict t = .ok v ∧ read .strict t' = .ok v' ∧ Retells .others s v v') ∨
      ∃ e e', read .strict t = .error e ∧ read .strict t' = .error e' := by
  obtain ⟨w, u, u', x, hw, hu, hx, rfl, rfl⟩ := h
  have hends : Ends x := by simpa using hx.ends ends_nil
  have hrest : skipBlanks x = [] := by rw [← List.append_nil x, hx.skip]; rfl
  have hskip : skipBlanks (w ++ (u ++ x)) = u ++ x := (hw.skip _).trans (hu.starts.1.append x).skip
  have hskip' : skipBlanks (w ++ (u' ++ x)) = u' ++ x :=
    (hw.skip _).trans (hu.starts.2.append x).skip
  have hvalue : Matched (Retells .others s) x x
      (value false (2 * (w ++ (u ++ x)).length + 2) Rules.strict.depth (u ++ x))
      (value false (2 * (w ++ (u' ++ x)).length + 2) Rules.strict.depth (u' ++ x)) :=
    hu.alike hends hends (by simp only [List.length_append]; omega)
      (by simp only [List.length_append]; omega)
  have hlone : Rules.strict.loneSurrogates = false := rfl
  obtain ⟨v, v', hv, hv', hvalue⟩ | ⟨e, e', he, he'⟩ := hvalue
  · refine .inl ⟨v, v', ?_, ?_, hvalue⟩
    · rw [read, hskip, hlone, hv]
      simp only [hrest]
    · rw [read, hskip', hlone, hv']
      simp only [hrest]
  · exact .inr ⟨e, e', by rw [read, hskip, hlone, he], by rw [read, hskip', hlone, he']⟩

end Terraload.Json
