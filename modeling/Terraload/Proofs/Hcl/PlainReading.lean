import Terraload.Proofs.Hcl.Opening
import Terraload.Proofs.Hcl.Plain
/-!
Plain data is read as the value it writes, wherever nothing behind it continues it.
-/
namespace Terraload.Hcl

open Reader

variable {n : Nat} {c d : Cursor} {x : Char} {k cs s t r : List Char} {v : Value} {vs : List Value}
  {ms : Members Value}

theorem skipBlanks_blank (t : List Char) : skipBlanks (' ' :: t) = skipBlanks t := rfl

theorem solid_of_opensPlain (hx : opensPlain x = true) : solid x = true := solid_of_test hx rfl

theorem unmarked_of_opensPlain (hx : opensPlain x = true) (t : List Char) : Unmarked (x :: t) := by
  intro y u heq
  cases heq
  exact ⟨ne_of_test hx rfl, fun h => absurd h (ne_of_test hx rfl)⟩

theorem dropWord?_ne {y : Char} (h : x ≠ y) (w t : List Char) : dropWord? (y :: w) (x :: t) = none := by
  simp [dropWord?, h.symm]

theorem Plain.no_word {y : Char} (h : Plain v s) (hy : opensPlain y = false)
    (hs : skipBlanks c.rest = s ++ r) (w : List Char) :
    dropWord? (y :: w) (skipBlanks c.rest) = none := by
  obtain ⟨x, t, rfl, hx⟩ := h.head
  rw [hs]
  exact dropWord?_ne (ne_of_test hx hy) _ _

/-- Data is no comprehension. -/
theorem Plain.not_for (h : Plain v s) (hr : Without nameChar r) :
    (name? (s ++ r)).filter (fun n => n.1 == forWord) = none := by
  cases h with
  | text h => rw [List.cons_append, name?_eq_none (by decide)]; rfl
  | integer n h =>
    obtain ⟨d, ds, hd, hdigit⟩ := natDigits_cons n
    rw [hd, List.cons_append, name?_eq_none (not_nameStart_of_digit hdigit)]
    rfl
  | yes =>
    have hname : IsName (chars "true") := isName_cons rfl
    rw [hname.name? hr]
    rfl
  | no =>
    have hname : IsName (chars "false") := isName_cons rfl
    rw [hname.name? hr]
    rfl
  | list h => rw [List.cons_append, name?_eq_none (by decide)]; rfl
  | object hnames h => rw [List.cons_append, name?_eq_none (by decide)]; rfl

/-- What comes first inside of a list. -/
theorem PlainItems.start (h : PlainItems vs s) (r : List Char) :
    skipBlanks (s ++ ']' :: r) = s ++ ']' :: r ∧ gap? (s ++ ']' :: r) = none ∧
      (name? (s ++ ']' :: r)).filter (fun n => n.1 == forWord) = none := by
  have hitem {v : Value} {s : List Char} (h : Plain v s) {u : List Char} (hu : Closes u) :
      skipBlanks (s ++ u) = s ++ u ∧ gap? (s ++ u) = none ∧
        (name? (s ++ u)).filter (fun n => n.1 == forWord) = none := by
    have hfor := h.not_for fun y hy => (hu.word y hy).1
    obtain ⟨x, t, rfl, hx⟩ := h.head
    have hsolid := solid_of_opensPlain hx
    exact ⟨skipBlanks_of_solid hsolid _, gap?_of_solid hsolid _, hfor⟩
  cases h with
  | nil => exact ⟨rfl, rfl, rfl⟩
  | last h => exact hitem h (.of_test rfl)
  | @more v w vs s t h hr =>
    simpa using hitem h (u := ',' :: ' ' :: (t ++ ']' :: r)) (.of_test rfl)

/-- What comes first inside of an object. -/
theorem PlainMembers.start (h : PlainMembers ms s) (r : List Char) :
    skipBlanks (s ++ '}' :: r) = s ++ '}' :: r ∧ gap? (s ++ '}' :: r) = none ∧
      (name? (s ++ '}' :: r)).filter (fun n => keyWords.contains n.1) = none := by
  have hmember {k : Name} (hk : Key k) (u : List Char) :
      skipBlanks (k ++ ' ' :: u) = k ++ ' ' :: u ∧ gap? (k ++ ' ' :: u) = none ∧
        (name? (k ++ ' ' :: u)).filter (fun n => keyWords.contains n.1) = none := by
    have hname := hk.isName.name? (r := ' ' :: u) (by intro y hy; cases hy; decide)
    have hword : (name? (k ++ ' ' :: u)).filter (fun n => keyWords.contains n.1) = none := by
      rw [hname]
      simpa using hk.notWord
    obtain ⟨x, t, rfl, -, hx⟩ := hk.head
    have hsolid := solid_of_opensPlain hx
    exact ⟨skipBlanks_of_solid hsolid _, gap?_of_solid hsolid _, hword⟩
  cases h with
  | nil => exact ⟨rfl, rfl, rfl⟩
  | @last k v s hk h => simpa using hmember hk ('=' :: ' ' :: (s ++ '}' :: r))
  | @more k v m ms s t hk h hr =>
    simpa using hmember hk ('=' :: ' ' :: (s ++ ',' :: ' ' :: (t ++ '}' :: r)))

structure Reads (n : Nat) : Prop where
  base : ∀ {v s c r}, Plain v s → Closes r → skipBlanks c.rest = s ++ r → 6 * s.length ≤ n →
    ∃ e, base n c = some (e, ⟨r, c.inner, false⟩) ∧ e.value = .ok v
  items : ∀ {vs s c r}, PlainItems vs s → skipBlanks c.rest = s ++ ']' :: r →
    6 * s.length + 4 ≤ n →
    ∃ es, tupleItems n c = some (es, ⟨r, c.inner, false⟩) ∧ values es = .ok vs
  members : ∀ {ms s c r}, PlainMembers ms s → skipBlanks c.rest = s ++ '}' :: r →
    6 * s.length + 5 ≤ n →
    ∃ is, objectItems n c = some (is, ⟨r, c.inner, false⟩) ∧
      ∀ before, itemValues is before = .ok (Members.putAll before ms)

theorem Plain.length_pos (h : Plain v s) : 0 < s.length := by
  obtain ⟨x, t, rfl, -⟩ := h.head
  exact Nat.succ_pos _

theorem base_digits {ds : List Char} (hne : ds ≠ []) (hds : ∀ d ∈ ds, decimalDigit d = true)
    (hs : skipBlanks c.rest = ds ++ r) (hr : Closes r) :
    Hcl.base (n + 1) c = some (.numeral (.integer ds), ⟨r, c.inner, false⟩) := by
  have hnumeral := numeral?_digits hne hds (fun x hx => (hr.word x hx).1)
    fun hpoint => (hr.word '.' hpoint).2 rfl
  cases ds with
  | nil => exact absurd rfl hne
  | cons d ds => exact base_numeral hs (by simp [opensWord, hds d (by simp)]) hnumeral

theorem Reads.base_succ (ih : Reads n) (h : Plain v s) (hr : Closes r)
    (hs : skipBlanks c.rest = s ++ r) (hn : 6 * s.length ≤ n + 1) :
    ∃ e, Hcl.base (n + 1) c = some (e, ⟨r, c.inner, false⟩) ∧ e.value = .ok v := by
  have hword : Without nameChar r := fun x hx => (hr.word x hx).1
  cases h with
  | @text cs h =>
    obtain ⟨n, rfl⟩ : ∃ m, n = m + 2 := ⟨n - 2, by simp at hn; omega⟩
    simp only [List.cons_append, List.append_assoc, List.nil_append] at hs
    refine ⟨_, base_string hs (stringChars_plain h r), ?_⟩
    rw [value_literal, unescape_plain fun x hx => (h x hx).2.2.1]
  | integer k h =>
    have hdigits (d : Char) (hd : d ∈ natDigits k) : decimalDigit d = true := natDigits_digit hd
    refine ⟨_, base_digits (natDigits_ne_nil k) hdigits hs hr, ?_⟩
    rw [value_digits hdigits h, natOfDigits_natDigits]
  | yes => exact ⟨_, base_word hs (isName_cons rfl) hword
      (by decide) (fun h => absurd h (by decide)), rfl⟩
  | no => exact ⟨_, base_word hs (isName_cons rfl) hword
      (by decide) (fun h => absurd h (by decide)), rfl⟩
  | @list vs s h =>
    simp only [List.cons_append, List.append_assoc, List.nil_append, List.length_cons,
      List.length_append] at hs hn
    obtain ⟨hskip, hgap, hfor⟩ := h.start r
    obtain ⟨es, hes, hvs⟩ := ih.items (c := ⟨s ++ ']' :: r, c.inner, false⟩) h hskip (by omega)
    rw [← hskip] at hgap hfor
    exact ⟨.tuple es, base_tuple hs hgap hfor hes, by rw [Expr.value, hvs]; rfl⟩
  | @object ms s hnames h =>
    simp only [List.cons_append, List.append_assoc, List.nil_append, List.length_cons,
      List.length_append] at hs hn
    obtain ⟨hskip, hgap, hword⟩ := h.start r
    obtain ⟨is, his, hms⟩ := ih.members (c := ⟨s ++ '}' :: r, c.inner, false⟩) h hskip (by omega)
    rw [← hskip] at hgap hword
    refine ⟨.object is, base_object hs hgap hword his, ?_⟩
    rw [Expr.value, hms, Members.putAll_of_nodup (by simpa using hnames)]
    rfl

theorem Reads.expression (ih : Reads n) (h : Plain v s) (hr : Closes r)
    (hs : skipBlanks c.rest = s ++ r) (hn : 6 * s.length ≤ n) :
    ∃ e, Hcl.expression (n + 3) c = some (⟨e, []⟩, ⟨r, c.inner, false⟩) ∧ e.value = .ok v := by
  have hpos := h.length_pos
  obtain ⟨e, he, hv⟩ := ih.base h hr hs hn
  obtain ⟨x, t, rfl, hx⟩ := h.head
  refine ⟨e, expression_of_base he hr (by omega) ?_, hv⟩
  rw [hs]
  exact unmarked_of_opensPlain hx _

theorem Reads.items_succ (ih : ∀ m, m ≤ n → Reads m) (h : PlainItems vs s)
    (hs : skipBlanks c.rest = s ++ ']' :: r) (hn : 6 * s.length + 4 ≤ n + 1) :
    ∃ es, tupleItems (n + 1) c = some (es, ⟨r, c.inner, false⟩) ∧ values es = .ok vs := by
  obtain ⟨n, rfl⟩ : ∃ m, n = m + 3 := ⟨n - 3, by omega⟩
  cases h with
  | nil => exact ⟨[], tupleItems_close (by rw [hs]; rfl), rfl⟩
  | @last v s h =>
    obtain ⟨e, he, hv⟩ := (ih n (by omega)).expression h (.of_test rfl) hs (by omega)
    exact ⟨[e], tupleItems_last (h.no_word rfl hs []) he, by rw [values, hv]; rfl⟩
  | @more v w vs s t h ht =>
    simp only [List.append_assoc, List.cons_append, List.length_append, List.length_cons] at hs hn
    obtain ⟨hstart, hgap, -⟩ := ht.start r
    have hskip := (skipBlanks_blank _).trans hstart
    obtain ⟨e, he, hv⟩ := (ih n (by omega)).expression h (.of_test rfl) hs (by omega)
    obtain ⟨es, hes, hvs⟩ := (ih (n + 3) (by omega)).items
      (c := ⟨' ' :: (t ++ ']' :: r), c.inner, false⟩) ht hskip (by omega)
    exact ⟨e :: es, tupleItems_more (h.no_word rfl hs []) he (by rw [hskip]; exact hgap) hes,
      by rw [values, hv, hvs]; rfl⟩

/-- A member is read up to what stands behind its value. -/
theorem Reads.member (ih : ∀ m, m ≤ n → Reads m) (hk : Key k) (h : Plain v s) (hr : Closes r)
    (hs : skipBlanks c.rest = k ++ ' ' :: '=' :: ' ' :: (s ++ r))
    (hn : 6 * (k.length + s.length) + 4 ≤ n) :
    ∃ e, objectItem n c = some (.computed (.name k) e, ⟨r, c.inner, false⟩) ∧ e.value = .ok v := by
  obtain ⟨n, rfl⟩ : ∃ m, n = m + 5 := by
    have := h.length_pos
    exact ⟨n - 5, by omega⟩
  obtain ⟨x, t, hx, -, hopens⟩ := hk.head
  have hname := hk.isName.name? (r := ' ' :: '=' :: ' ' :: (s ++ r)) (by intro y hy; cases hy; decide)
  have hword : (name? (skipBlanks c.rest)).filter (fun w => keyWords.contains w.1) = none := by
    rw [hs, hname]
    simpa using hk.notWord
  have hbase := base_word (n := n) hs hk.isName (by intro y hy; cases hy; decide) hk.notWord
    fun _ => ⟨rfl, rfl⟩
  have hkey := expression_of_base hbase (.of_test rfl) (Nat.succ_pos n) (by
    rw [hs, hx]
    exact unmarked_of_opensPlain hopens _)
  obtain ⟨y, u, rfl, hy⟩ := h.head
  have hskip : skipBlanks (' ' :: (y :: u ++ r)) = y :: u ++ r :=
    skipBlanks_of_solid (solid_of_opensPlain hy) _
  obtain ⟨e, he, hv⟩ := (ih (n + 1) (by omega)).expression
    (c := ⟨' ' :: (y :: u ++ r), c.inner, false⟩) h hr hskip (by omega)
  refine ⟨e, ?_, hv⟩
  rw [objectItem, run_bind (run_peek c), hword]
  dsimp only
  rw [run_bind hkey, assign, run_bind (run_word (a := ()) (r := ' ' :: (y :: u ++ r)) rfl),
    run_bind he]
  simp only [wordExpr, hk.notConstant]
  rfl

theorem Key.no_brace (hk : Key k) (hs : skipBlanks c.rest = k ++ t) :
    dropWord? ['}'] (skipBlanks c.rest) = none := by
  obtain ⟨x, u, rfl, -, hx⟩ := hk.head
  rw [hs]
  exact dropWord?_ne (ne_of_test hx rfl) _ _

theorem Reads.members_succ (ih : ∀ m, m ≤ n → Reads m) (h : PlainMembers ms s)
    (hs : skipBlanks c.rest = s ++ '}' :: r) (hn : 6 * s.length + 5 ≤ n + 1) :
    ∃ is, objectItems (n + 1) c = some (is, ⟨r, c.inner, false⟩) ∧
      ∀ before, itemValues is before = .ok (Members.putAll before ms) := by
  cases h with
  | nil => exact ⟨[], objectItems_close (by rw [hs]; rfl), fun before => rfl⟩
  | @last k v s hk h =>
    simp only [List.append_assoc, List.cons_append, List.length_append, List.length_cons] at hs hn
    obtain ⟨n, rfl⟩ : ∃ m, n = m + 1 := ⟨n - 1, by omega⟩
    obtain ⟨e, he, hv⟩ := Reads.member ih hk h (.of_test rfl) hs (by omega)
    refine ⟨[.computed (.name k) e], objectItems_last (hk.no_brace hs) he, fun before => ?_⟩
    rw [itemValues, Expr.key, hv]
    rfl
  | @more k v m ms s t hk h ht =>
    simp only [List.append_assoc, List.cons_append, List.length_append, List.length_cons] at hs hn
    obtain ⟨hstart, hgap, -⟩ := ht.start r
    have hskip := (skipBlanks_blank _).trans hstart
    obtain ⟨e, he, hv⟩ := Reads.member ih hk h (.of_test rfl) hs (by omega)
    obtain ⟨is, his, hms⟩ := (ih n (Nat.le_refl n)).members
      (c := ⟨' ' :: (t ++ '}' :: r), c.inner, false⟩) ht hskip (by omega)
    refine ⟨.computed (.name k) e :: is,
      objectItems_more (hk.no_brace hs) he (by rw [hskip]; exact hgap) his, fun before => ?_⟩
    rw [itemValues, Expr.key, hv]
    exact hms _

theorem reads (n : Nat) : Reads n := by
  -- Between a value and its parts stand at most six readers, each of which takes one off the
  -- measure, and a part is shorter by a character at least.
  induction n using Nat.strongRecOn with
  | ind n ih =>
    cases n with
    | zero =>
      constructor
      · intro v s c r h _ _ hn
        have := h.length_pos
        omega
      · intro vs s c r _ _ hn; omega
      · intro ms s c r _ _ hn; omega
    | succ n =>
      have ih (m : Nat) (hm : m ≤ n) : Reads m := ih m (Nat.lt_succ_of_le hm)
      exact ⟨(ih n (Nat.le_refl n)).base_succ, Reads.items_succ ih, Reads.members_succ ih⟩

structure Denotes (s : List Char) (v : Value) : Prop where
  head : ∃ x t, s = x :: t ∧ solid x = true
  read : ∀ {n c r}, Closes r → skipBlanks c.rest = s ++ r → 6 * s.length ≤ n →
    ∃ e, Hcl.expression (n + 3) c = some (⟨e, []⟩, ⟨r, c.inner, false⟩) ∧ e.value = .ok v

theorem Plain.denotes (h : Plain v s) : Denotes s v where
  head := by
    obtain ⟨x, t, hx, hopens⟩ := h.head
    exact ⟨x, t, hx, solid_of_opensPlain hopens⟩
  read := fun hr hs hn => (reads _).expression h hr hs hn

end Terraload.Hcl
