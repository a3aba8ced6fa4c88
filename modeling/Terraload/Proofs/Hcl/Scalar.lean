import Terraload.Proofs.Hcl.PlainReading
/-!
The scalars of configuration text by themselves: words, integers with a sign or without, and strings
without marks.
-/
namespace Terraload.Hcl

open Reader

variable {n : Nat} {c : Cursor} {x : Char} {k s r ds : List Char} {v : Value} {e : Expr}

/-- A value whose reading is that of an operand. -/
theorem denotes_of_base (hhead : ∃ x t, s = x :: t ∧ solid x = true)
    (hmark : ∀ r, Closes r → Unmarked (s ++ r))
    (hbase : ∀ {n : Nat} {c : Cursor} {r : List Char}, Closes r → skipBlanks c.rest = s ++ r →
      base (n + 3) c = some (e, ⟨r, c.inner, false⟩))
    (hv : e.value = .ok v) : Denotes s v where
  head := hhead
  read := by
    intro n c r hr hs hn
    obtain ⟨x, t, rfl, -⟩ := hhead
    obtain ⟨n, rfl⟩ : ∃ m, n = m + 3 := ⟨n - 3, by simp at hn; omega⟩
    refine ⟨e, expression_of_base (hbase hr hs) hr (Nat.succ_pos _) ?_, hv⟩
    rw [hs]
    exact hmark r hr

/-- Without a mark of negation or complement there is nothing to look behind. -/
theorem denotes_of_solid (hs : s = x :: r) (hx : solid x = true) (hbang : x ≠ '!') (hminus : x ≠ '-')
    (hbase : ∀ {n : Nat} {c : Cursor} {r : List Char}, Closes r → skipBlanks c.rest = s ++ r →
      base (n + 3) c = some (e, ⟨r, c.inner, false⟩))
    (hv : e.value = .ok v) : Denotes s v := by
  refine denotes_of_base ⟨x, r, hs, hx⟩ (fun u hu y t heq => ?_) hbase hv
  rw [hs] at heq
  cases heq
  exact ⟨hbang, fun h => absurd h hminus⟩

theorem denotes_constant {k : Constant} (hk : IsName s) (hword : s ∉ keyWords)
    (hconstant : constant? s = some k) : Denotes s k.value := by
  obtain ⟨x, t, hs, hx, -⟩ := id hk
  have hexpr : wordExpr s = .constant k := by simp only [wordExpr, hconstant]
  refine denotes_of_solid (e := .constant k) hs (solid_of_test hx rfl) (ne_of_test hx rfl)
    (ne_of_test hx rfl) (fun hr h => ?_) rfl
  rw [← hexpr]
  exact base_word h hk (fun y hy => (hr.word y hy).1) hword
    fun hnone => absurd (hconstant.symm.trans hnone) (Option.some_ne_none _)

theorem denotes_digits (hne : ds ≠ []) (hds : ∀ d ∈ ds, decimalDigit d = true)
    (h : ds.length ≤ digitLimit) : Denotes ds (.integer (natOfDigits ds)) := by
  cases ds with
  | nil => exact absurd rfl hne
  | cons d t =>
    have hd := hds d (by simp)
    exact denotes_of_solid rfl (solid_of_test hd rfl) (ne_of_test hd rfl) (ne_of_test hd rfl)
      (fun hr hs => base_digits hne hds hs hr) (value_digits hds h)

/-- Before two or more digits a minus sign belongs to the number. -/
theorem denotes_negative (hlength : 2 ≤ ds.length) (hds : ∀ d ∈ ds, decimalDigit d = true)
    (h : ds.length ≤ digitLimit) : Denotes ('-' :: ds) (.integer (-natOfDigits ds)) := by
  have hnumeral {r : List Char} (hr : Closes r) :
      numeral? ('-' :: (ds ++ r)) = some (.integer ('-' :: ds), r) :=
    numeral?_negative hlength hds (fun x hx => (hr.word x hx).1)
      fun hpoint => (hr.word '.' hpoint).2 rfl
  refine denotes_of_base (e := .numeral (.integer ('-' :: ds))) ⟨_, _, rfl, rfl⟩ ?_ ?_ ?_
  · rintro r hr x t heq
    cases heq
    exact ⟨by decide, fun _ => by rw [List.cons_append, hnumeral hr]; rfl⟩
  · intro n c r hr hs
    exact base_numeral hs rfl (hnumeral hr)
  · rw [Expr.value, Numeral.value, (readInteger_digits hds h).2]
    rfl

/-- Before a single digit a minus sign is an operator. -/
theorem denotes_negative_digit (hx : decimalDigit x = true) :
    Denotes ['-', x] (.integer (-natOfDigits [x])) where
  head := ⟨_, _, rfl, rfl⟩
  read := by
    intro n c r hr hs hn
    obtain ⟨n, rfl⟩ : ∃ m, n = m + 3 := ⟨n - 3, by simp at hn; omega⟩
    have hds : ∀ d ∈ [x], decimalDigit d = true := by simpa using hx
    have hnumeral : numeral? ('-' :: x :: r) = none :=
      numeral?_negative_digit hx (fun y hy => (hr.word y hy).1)
        fun hpoint => (hr.word '.' hpoint).2 rfl
    have hskip : skipBlanks (x :: r) = x :: r := skipBlanks_of_solid (solid_of_test hx rfl) r
    have hbase := base_digits (n := n + 2) (c := ⟨x :: r, c.inner, false⟩) (by simp) hds hskip hr
    have hterm : term (n + 5) c =
        some (.unary .negate (.numeral (.integer [x])), ⟨r, c.inner, false⟩) := by
      rw [term, run_bind (run_peek c)]
      simp only [hs, List.cons_append, List.nil_append, hnumeral, Option.isSome_none]
      rw [if_neg (by decide), run_bind (run_setRest (x :: r) c),
        run_bind (operand_of_base hbase hr (Nat.succ_pos _))]
      rfl
    refine ⟨.unary .negate (.numeral (.integer [x])), ?_, ?_⟩
    · rw [expression, run_bind hterm, run_bind (operations_none hr.operator),
        run_bind (run_word?_none hr.question)]
      rfl
    · have hlength : [x].length ≤ digitLimit := by simp [digitLimit]
      rw [Expr.value, Numeral.value, (readInteger_digits hds hlength).1]
      rfl

inductive Inside : List Char → Prop
  | nil : Inside []
  | plain {x : Char} {s : List Char} (hquote : x ≠ '"') (hslash : x ≠ '\\') (h : Inside s) :
      Inside (x :: s)
  | escape {x : Char} {s : List Char} (hx : x ≠ '\n') (h : Inside s) : Inside ('\\' :: x :: s)

structure Unbraced (s : List Char) : Prop where
  interpolation : ¬ ['$', '{'] <:+: s
  directive : ¬ ['%', '{'] <:+: s

theorem Unbraced.of_cons (h : Unbraced (x :: s)) : Unbraced s :=
  ⟨fun hs => h.interpolation (List.infix_cons hs), fun hs => h.directive (List.infix_cons hs)⟩

/-- A mark that would stand at the head of a string stands in it, as its end is a quote. -/
theorem Unbraced.head (h : Unbraced s) (r t : List Char) :
    s ++ '"' :: r ≠ '$' :: '{' :: t ∧ s ++ '"' :: r ≠ '%' :: '{' :: t := by
  constructor
  · intro hs
    match s, hs with
    | [_], hs => simp at hs
    | x :: y :: s, hs =>
      obtain ⟨rfl, rfl⟩ : x = '$' ∧ y = '{' := by simp at hs; exact ⟨hs.1, hs.2.1⟩
      exact h.interpolation ⟨[], s, rfl⟩
  · intro hs
    match s, hs with
    | [_], hs => simp at hs
    | x :: y :: s, hs =>
      obtain ⟨rfl, rfl⟩ : x = '%' ∧ y = '{' := by simp at hs; exact ⟨hs.1, hs.2.1⟩
      exact h.directive ⟨[], s, rfl⟩

theorem Inside.stringChars (h : Inside s) (hs : Unbraced s) (r : List Char) :
    stringChars (s ++ '"' :: r) = (s, '"' :: r) := by
  induction h with
  | nil => rfl
  | @plain x s hquote hslash h ih =>
    have ih := ih hs.of_cons
    have hhead := hs.head r
    have htail := hs.of_cons.head r
    rw [List.cons_append] at hhead ⊢
    rw [stringChars.eq_9 x _ (by simpa using hquote)
      (fun t hx ht => (hhead t).1 (by rw [hx, ht])) (fun t hx ht => (hhead t).2 (by rw [hx, ht]))
      (fun t _ ht => (htail t).1 ht) (fun t _ ht => (htail t).2 ht) (by simp [hslash])
      (by simp [hslash]) (by simp [hslash]), ih]
  | @escape x s hx h ih =>
    rw [List.cons_append, List.cons_append, stringChars.eq_7 x _ (by simpa using hx),
      ih hs.of_cons.of_cons]

theorem Inside.denotes (h : Inside s) (hs : Unbraced s) :
    Denotes ('"' :: (s ++ ['"'])) (.text (Text.ofChars (unescape s))) := by
  refine denotes_of_solid rfl rfl (by decide) (by decide) (fun {n c r} hr hskip => ?_)
    (value_literal s)
  rw [List.cons_append, List.append_assoc, List.singleton_append] at hskip
  exact base_string hskip (h.stringChars hs r)

end Terraload.Hcl
