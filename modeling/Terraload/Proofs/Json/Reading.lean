import Terraload.Proofs.Json.Layout
/-!
Reading a value: what is read is a written form of the value that is returned, and a written form is
read as its value, unless its lists and objects are nested too deeply.
-/
namespace Terraload.Json

variable {lone : Bool} {n d m : Nat} {s t r u w k : Text} {v : Value} {vs : List Value}
  {ms : Members Value} {e : Failure}

theorem value_text (h : string lone s n s = .ok (t, r)) :
    value lone (n + 1) d (.char '"' :: s) = .ok (.text t, r) := by
  rw [value, h]

theorem value_word {w : String} (h : (w, v) ∈ words) (r : Text) :
    value lone (n + 1) d (text w ++ r) = .ok (v, r) := by
  obtain ⟨c, x, hx, hquote, hbrace, hbracket⟩ := words_head h
  have hhead (e : Char) (he : c ≠ e) : (text w ++ r).head? ≠ some (.char e) := by
    simpa [hx] using he
  rw [value_of_scalar (hhead '"' hquote) (hhead '{' hbrace) (hhead '[' hbracket),
    scalar, wordValue?_append h]

theorem value_numeral (k : Numeral) (hr : Ends r) :
    value lone (n + 1) d (k.text ++ r) =
      match k.value? with
      | some (.ok v) => .ok (v, r)
      | some (.error e) => .error e
      | none => fail .expectedValue (k.text ++ r) := by
  obtain ⟨c, x, hc, hx⟩ := k.head
  have hhead (e : Char) (he : decimalDigit e = false) (hminus : e ≠ '-') :
      (k.text ++ r).head? ≠ some (.char e) := by
    have hce : c ≠ e := ne_of_test hc he
    obtain hx | hx := hx
    · simpa [hx] using hce
    · simpa [hx] using hminus.symm
  rw [value_of_scalar (hhead '"' rfl (by decide)) (hhead '{' rfl (by decide))
    (hhead '[' rfl (by decide)), scalar, wordValue?_numeral, number?_append k hr]
  cases k.value? with
  | none => rfl
  | some y => cases y <;> rfl

theorem value_noItems (h : skipBlanks s = .char ']' :: r) :
    value lone (n + 1) (d + 1) (.char '[' :: s) = .ok (.list [], r) := by
  rw [value]
  simp only [h]

theorem value_items (h : (skipBlanks s).head? ≠ some (.char ']')) :
    value lone (n + 1) (d + 1) (.char '[' :: s) =
      (items lone n d (skipBlanks s)).map fun x => (.list x.1, x.2) := by
  rw [value]
  split
  next heq => rw [heq] at h; exact absurd rfl h
  next => cases items lone n d (skipBlanks s) <;> rfl

theorem value_noMembers (h : skipBlanks s = .char '}' :: r) :
    value lone (n + 1) (d + 1) (.char '{' :: s) = .ok (.object [], r) := by
  rw [value]
  simp only [h]

theorem value_members (h : (skipBlanks s).head? ≠ some (.char '}')) :
    value lone (n + 1) (d + 1) (.char '{' :: s) =
      (members lone n d [] (skipBlanks s)).map fun x => (.object x.1, x.2) := by
  rw [value]
  split
  next heq => rw [heq] at h; exact absurd rfl h
  next => cases members lone n d [] (skipBlanks s) <;> rfl

theorem items_last (hv : value lone n d s = .ok (v, t)) (ht : skipBlanks t = .char ']' :: r) :
    items lone (n + 1) d s = .ok ([v], r) := by
  rw [items, hv]
  simp only [ht]

theorem items_more (hv : value lone n d s = .ok (v, t)) (ht : skipBlanks t = .char ',' :: r) :
    items lone (n + 1) d s =
      (items lone n d (skipBlanks r)).map fun x => (v :: x.1, x.2) := by
  rw [items, hv]
  simp only [ht]
  cases items lone n d (skipBlanks r) <;> rfl

theorem items_error (hv : value lone n d s = .error e) : items lone (n + 1) d s = .error e := by
  rw [items, hv]

theorem members_last (hk : string lone s n s = .ok (k, t)) (ht : skipBlanks t = .char ':' :: u)
    (hv : value lone n d (skipBlanks u) = .ok (v, w)) (hw : skipBlanks w = .char '}' :: r) :
    members lone (n + 1) d ms (.char '"' :: s) = .ok (ms.put k v, r) := by
  rw [members, hk]
  simp only [ht, hv, hw]

theorem members_more (hk : string lone s n s = .ok (k, t)) (ht : skipBlanks t = .char ':' :: u)
    (hv : value lone n d (skipBlanks u) = .ok (v, w)) (hw : skipBlanks w = .char ',' :: r) :
    members lone (n + 1) d ms (.char '"' :: s) = members lone n d (ms.put k v) (skipBlanks r) := by
  rw [members, hk]
  simp only [ht, hv, hw]

theorem members_error (hk : string lone s n s = .ok (k, t)) (ht : skipBlanks t = .char ':' :: u)
    (hv : value lone n d (skipBlanks u) = .error e) :
    members lone (n + 1) d ms (.char '"' :: s) = .error e := by
  rw [members, hk]
  simp only [ht, hv]

/-- A key and what stands behind it are read up to the value. -/
theorem Spells.key {p x : Text} (hk : Spells lone k p) (hw : Blank w) (hx : Blank x)
    (hs : skipBlanks s = s) (hn : p.length < n) :
    ∃ t u, Json.string lone (p ++ .char '"' :: (w ++ .char ':' :: (x ++ s))) n
        (p ++ .char '"' :: (w ++ .char ':' :: (x ++ s))) = .ok (k, t) ∧
      skipBlanks t = .char ':' :: u ∧ skipBlanks u = s :=
  ⟨_, _, hk.string _ _ hn, hw.before rfl _, (hx.skip s).trans hs⟩

structure Sound (lone : Bool) (n : Nat) : Prop where
  value : ∀ {d s v r}, value lone n d s = .ok (v, r) → ∃ u, s = u ++ r ∧ Writes lone d v u
  items : ∀ {d s vs r}, items lone n d s = .ok (vs, r) →
    ∃ u, s = u ++ .char ']' :: r ∧ WritesItems lone d vs u
  members : ∀ {d before s ms r}, members lone n d before s = .ok (ms, r) →
    ∃ more u, s = u ++ .char '}' :: r ∧ WritesMembers lone d more u ∧
      ms = Members.putAll before more

theorem scalar_sound (h : scalar s = .ok (v, r)) : ∃ u, s = u ++ r ∧ Writes lone d v u := by
  unfold scalar at h
  split at h
  next hw =>
    cases h
    obtain ⟨w, hmem, hs⟩ := wordValue?_sound hw
    exact ⟨_, hs, .word hmem⟩
  next =>
    split at h
    next hnumber =>
      cases h
      obtain ⟨k, hs, hk, -⟩ := number?_sound hnumber
      exact ⟨_, hs, .number k hk⟩
    next => cases h
    next => cases h

theorem Sound.value_succ (ih : Sound lone n) (h : Json.value lone (n + 1) d s = .ok (v, r)) :
    ∃ u, s = u ++ r ∧ Writes lone d v u := by
  unfold Json.value at h
  split at h
  next s =>
    split at h
    next hstring =>
      cases h
      obtain ⟨w, hw, ht⟩ := string_sound hstring
      exact ⟨_, by simp [hw], .text ht⟩
    next => cases h
  next s =>
    split at h
    next => cases h
    next d =>
      obtain ⟨w, hw, hs⟩ := skipBlanks_split s
      split at h
      next heq =>
        cases h
        exact ⟨_, by rw [hs, heq]; simp, .noMembers hw⟩
      next =>
        split at h
        next hmembers =>
          cases h
          obtain ⟨more, u, hu, hwrites, rfl⟩ := ih.members hmembers
          exact ⟨_, by rw [hs, hu]; simp, .members hw hwrites⟩
        next => cases h
  next s =>
    split at h
    next => cases h
    next d =>
      obtain ⟨w, hw, hs⟩ := skipBlanks_split s
      split at h
      next heq =>
        cases h
        exact ⟨_, by rw [hs, heq]; simp, .noItems hw⟩
      next =>
        split at h
        next hitems =>
          cases h
          obtain ⟨u, hu, hwrites⟩ := ih.items hitems
          exact ⟨_, by rw [hs, hu]; simp, .items hw hwrites⟩
        next => cases h
  next => exact scalar_sound h

theorem Sound.items_succ (ih : Sound lone n) (h : Json.items lone (n + 1) d s = .ok (vs, r)) :
    ∃ u, s = u ++ .char ']' :: r ∧ WritesItems lone d vs u := by
  unfold Json.items at h
  split at h
  next => cases h
  next v t hv =>
    obtain ⟨u, rfl, hu⟩ := ih.value hv
    obtain ⟨w, hw, ht⟩ := skipBlanks_split t
    split at h
    next heq =>
      cases h
      exact ⟨_, by rw [ht, heq]; simp, .last hu hw⟩
    next t' heq =>
      obtain ⟨x, hx, ht'⟩ := skipBlanks_split t'
      split at h
      next hitems =>
        cases h
        obtain ⟨p, hp, hwrites⟩ := ih.items hitems
        exact ⟨_, by rw [ht, heq, ht', hp]; simp, .more hu hw hx hwrites⟩
      next => cases h
    next => cases h

theorem Sound.members_succ (ih : Sound lone n) {before : Members Value}
    (h : Json.members lone (n + 1) d before s = .ok (ms, r)) :
    ∃ more u, s = u ++ .char '}' :: r ∧ WritesMembers lone d more u ∧
      ms = Members.putAll before more := by
  unfold Json.members at h
  split at h
  next s =>
    split at h
    next => cases h
    next k t hk =>
      obtain ⟨p, rfl, hp⟩ := string_sound hk
      obtain ⟨w, hw, ht⟩ := skipBlanks_split t
      split at h
      next u heq =>
        obtain ⟨x, hx, hu⟩ := skipBlanks_split u
        split at h
        next => cases h
        next v y hv =>
          obtain ⟨a, ha, hwrites⟩ := ih.value hv
          obtain ⟨z, hz, hy⟩ := skipBlanks_split y
          split at h
          next hclose =>
            cases h
            exact ⟨[(k, v)], _, by rw [ht, heq, hu, ha, hy, hclose]; simp,
              .last hp hw hx hwrites hz, rfl⟩
          next b hcomma =>
            obtain ⟨c, hc, hb⟩ := skipBlanks_split b
            obtain ⟨more, q, hq, hmore, rfl⟩ := ih.members h
            exact ⟨(k, v) :: more, _, by rw [ht, heq, hu, ha, hy, hcomma, hb, hq]; simp,
              .more hp hw hx hwrites hz hc hmore, rfl⟩
          next => cases h
      next => cases h
  next => cases h

theorem sound (lone : Bool) (n : Nat) : Sound lone n := by
  induction n with
  | zero =>
    constructor
    · intro d s v r h; rw [value] at h; cases h
    · intro d s vs r h; rw [items] at h; cases h
    · intro d before s ms r h; rw [members] at h; cases h
  | succ n ih => exact ⟨ih.value_succ, ih.items_succ, ih.members_succ⟩

def Given {α : Type} (levels depth : Nat) (result : Except Failure α) (a : α) : Prop :=
  result = .ok a ∨ depth < levels ∧ result = .error .tooDeep

theorem Given.ok {α : Type} {result : Except Failure α} {a : α} (h : result = .ok a) :
    Given m d result a := .inl h

theorem Given.map {α β : Type} {result : Except Failure α} {a : α} (h : Given m d result a)
    (f : α → β) : Given m d (result.map f) (f a) := by
  obtain rfl | ⟨hd, rfl⟩ := h
  · exact .inl rfl
  · exact .inr ⟨hd, rfl⟩

theorem Given.deeper {α : Type} {result : Except Failure α} {a : α} (h : Given m d result a) :
    Given (m + 1) (d + 1) result a :=
  h.imp_right fun h => ⟨Nat.succ_lt_succ h.1, h.2⟩

structure Complete (lone : Bool) (n : Nat) : Prop where
  value : ∀ {m d v u r}, Writes lone m v u → Ends r → 2 * (u ++ r).length < n →
    Given m d (value lone n d (u ++ r)) (v, r)
  items : ∀ {m d vs u r}, WritesItems lone m vs u → 2 * (u ++ .char ']' :: r).length + 1 < n →
    Given m d (items lone n d (u ++ .char ']' :: r)) (vs, r)
  members : ∀ {m d before ms u r}, WritesMembers lone m ms u →
    2 * (u ++ .char '}' :: r).length + 1 < n →
    Given m d (members lone n d before (u ++ .char '}' :: r)) (Members.putAll before ms, r)

theorem Complete.value_succ (ih : Complete lone n) (h : Writes lone m v u) (hr : Ends r)
    (hn : 2 * (u ++ r).length < n + 1) :
    Given m d (Json.value lone (n + 1) d (u ++ r)) (v, r) := by
  cases h with
  | word h => exact .ok (value_word h r)
  | number k hk => exact .ok (by rw [value_numeral k hr, hk])
  | @text _ t s h =>
    simp only [List.cons_append, List.append_assoc, List.length_cons, List.length_append] at hn ⊢
    exact .ok (value_text (h.string _ _ (by omega)))
  | @noItems m w hw =>
    cases d with
    | zero => exact .inr ⟨by omega, by rw [List.cons_append, Json.value]⟩
    | succ d => exact .ok (value_noItems (by simpa using hw.before (by decide) r))
  | @items m w s vs hw h =>
    cases d with
    | zero => exact .inr ⟨by omega, by rw [List.cons_append, Json.value]⟩
    | succ d =>
      have hstarts : Starts (s ++ .char ']' :: r) := h.starts.append _
      have hskip : skipBlanks (w ++ (s ++ .char ']' :: r)) = s ++ .char ']' :: r :=
        (hw.skip _).trans hstarts.skip
      simp only [List.cons_append, List.append_assoc, List.length_cons, List.length_append,
        List.nil_append] at hn ⊢
      rw [value_items (by rw [hskip]; exact hstarts.bracket), hskip]
      refine ((ih.items (r := r) h ?_).map _).deeper
      simp only [List.length_cons, List.length_append]
      omega
  | @noMembers m w hw =>
    cases d with
    | zero => exact .inr ⟨by omega, by rw [List.cons_append, Json.value]⟩
    | succ d => exact .ok (value_noMembers (by simpa using hw.before (by decide) r))
  | @members m w s ms hw h =>
    cases d with
    | zero => exact .inr ⟨by omega, by rw [List.cons_append, Json.value]⟩
    | succ d =>
      have hstarts : Starts (s ++ .char '}' :: r) := h.starts.append _
      have hskip : skipBlanks (w ++ (s ++ .char '}' :: r)) = s ++ .char '}' :: r :=
        (hw.skip _).trans hstarts.skip
      simp only [List.cons_append, List.append_assoc, List.length_cons, List.length_append,
        List.nil_append] at hn ⊢
      rw [value_members (by rw [hskip]; exact hstarts.brace), hskip]
      refine ((ih.members (r := r) h ?_).map _).deeper
      simp only [List.length_cons, List.length_append]
      omega

theorem Complete.items_succ (ih : Complete lone n) (h : WritesItems lone m vs u)
    (hn : 2 * (u ++ .char ']' :: r).length + 1 < n + 1) :
    Given m d (Json.items lone (n + 1) d (u ++ .char ']' :: r)) (vs, r) := by
  cases h with
  | @last _ v s w h hw =>
    simp only [List.append_assoc] at hn ⊢
    have hends : Ends (w ++ .char ']' :: r) := hw.ends (ends_cons rfl r)
    obtain hv | ⟨hd, hv⟩ := ih.value (d := d) h hends (by omega)
    · exact .ok (items_last hv (hw.before rfl r))
    · exact .inr ⟨hd, items_error hv⟩
  | @more _ v s w x t vs h hw hx ht =>
    simp only [List.append_assoc, List.cons_append] at hn ⊢
    have hends : Ends (w ++ .char ',' :: (x ++ (t ++ .char ']' :: r))) := hw.ends (ends_cons rfl _)
    obtain hv | ⟨hd, hv⟩ := ih.value (d := d) h hends (by omega)
    · rw [items_more hv (hw.before rfl _), hx.skip, (ht.starts.append _).skip]
      refine (ih.items (r := r) ht ?_).map _
      simp only [List.length_append, List.length_cons] at hn ⊢
      omega
    · exact .inr ⟨hd, items_error hv⟩

theorem Complete.members_succ (ih : Complete lone n) {before : Members Value}
    (h : WritesMembers lone m ms u) (hn : 2 * (u ++ .char '}' :: r).length + 1 < n + 1) :
    Given m d (Json.members lone (n + 1) d before (u ++ .char '}' :: r))
      (Members.putAll before ms, r) := by
  cases h with
  | @last _ k p w x s y v hk hw hx h hy =>
    simp only [List.append_assoc, List.cons_append, List.length_append, List.length_cons] at hn ⊢
    obtain ⟨t, a, hstring, hcolon, hskip⟩ := hk.key (n := n) hw hx ((h.starts.append (y ++ .char '}' :: r)).skip)
      (by omega)
    have hends : Ends (y ++ .char '}' :: r) := hy.ends (ends_cons rfl r)
    have hvalue := ih.value (d := d) h hends (by
      simp only [List.length_append, List.length_cons]
      omega)
    rw [← hskip] at hvalue
    obtain hv | ⟨hd, hv⟩ := hvalue
    · exact .ok (members_last hstring hcolon hv (hy.before rfl r))
    · exact .inr ⟨hd, members_error hstring hcolon hv⟩
  | @more _ k p w x s y z q v ms hk hw hx h hy hz hq =>
    simp only [List.append_assoc, List.cons_append, List.length_append, List.length_cons] at hn ⊢
    obtain ⟨t, a, hstring, hcolon, hskip⟩ := hk.key (n := n) hw hx
      (h.starts.append (y ++ .char ',' :: (z ++ (q ++ .char '}' :: r)))).skip (by omega)
    have hends : Ends (y ++ .char ',' :: (z ++ (q ++ .char '}' :: r))) := hy.ends (ends_cons rfl _)
    have hvalue := ih.value (d := d) h hends (by
      simp only [List.length_append, List.length_cons]
      omega)
    rw [← hskip] at hvalue
    obtain hv | ⟨hd, hv⟩ := hvalue
    · rw [members_more hstring hcolon hv (hy.before rfl _), hz.skip, (hq.starts.append _).skip]
      refine ih.members (r := r) hq ?_
      simp only [List.length_append, List.length_cons]
      omega
    · exact .inr ⟨hd, members_error hstring hcolon hv⟩

theorem complete (lone : Bool) (n : Nat) : Complete lone n := by
  -- A value and the items it is read by have the same length, so items ask for one more.
  induction n with
  | zero =>
    constructor
    · intro m d v u r _ _ hn; omega
    · intro m d vs u r _ hn; omega
    · intro m d before ms u r _ hn; omega
  | succ n ih => exact ⟨ih.value_succ, ih.items_succ, ih.members_succ⟩

theorem Writes.read (h : Writes lone d v u) (hr : Ends r) (hn : 2 * (u ++ r).length < n) :
    value lone n d (u ++ r) = .ok (v, r) :=
  ((complete lone n).value h hr hn).resolve_right fun hd => absurd hd.1 (Nat.lt_irrefl d)

/-- A text is read as the value it writes. -/
theorem read_complete {rules : Rules} (h : WritesText rules.loneSurrogates m v s) :
    Given m rules.depth (read rules s) v := by
  obtain ⟨w, u, t, hw, hu, ht, rfl⟩ := h
  have hends : Ends t := by simpa using ht.ends ends_nil
  have hvalue := (complete rules.loneSurrogates (2 * (w ++ (u ++ t)).length + 2)).value
    (d := rules.depth) hu hends (by simp only [List.length_append]; omega)
  have hskip : skipBlanks (w ++ (u ++ t)) = u ++ t :=
    (hw.skip _).trans (hu.starts.append t).skip
  have hrest : skipBlanks t = [] := by rw [← List.append_nil t, ht.skip]; rfl
  obtain hv | ⟨hd, hv⟩ := hvalue
  · exact .ok (by rw [read, hskip, hv]; simp only [hrest])
  · exact .inr ⟨hd, by rw [read, hskip, hv]⟩

end Terraload.Json
