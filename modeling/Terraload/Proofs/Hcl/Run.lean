import Mathlib.Data.Option.Basic
import Terraload.Hcl.Reader
/-!
Running the readers of words, and of an expression that is a single operand.
-/
namespace Terraload.Hcl

open Reader

variable {α β : Type} {n : Nat} {a : α} {c d : Cursor} {w r : List Char}

theorem run_bind {x : Reader α} {f : α → Reader β} (h : x c = some (a, d)) :
    (x >>= f) c = f a d := by
  simp [bind, StateT.bind, h]

theorem run_pure (a : α) (c : Cursor) : (pure a : Reader α) c = some (a, c) := rfl

theorem run_map {x : Reader α} (f : α → β) (h : x c = some (a, d)) :
    (f <$> x) c = some (f a, d) := by
  simp [Functor.map, StateT.map, h]

theorem run_peek (c : Cursor) : peek c = some (skipBlanks c.rest, c) := rfl

theorem run_raw (c : Cursor) : raw c = some (c.rest, c) := rfl

theorem run_setRest (r : List Char) (c : Cursor) :
    setRest r c = some ((), ⟨r, c.inner, false⟩) := rfl

theorem run_guard {p : Prop} [Decidable p] (h : p) (c : Cursor) :
    (guard p : Reader Unit) c = some ((), c) := by
  rw [guard, if_pos h]
  rfl

theorem run_unlessFirm {bad : Bool} (h : bad = false) (c : Cursor) :
    unlessFirm bad c = some ((), c) := by
  simp [unlessFirm, h]

theorem run_quiet {x : Reader α} (h : x c = some (a, d)) :
    quiet x c = some (a, ⟨d.rest, c.inner, d.firm⟩) := by
  simp [quiet, h]

variable {f : List Char → Option (α × List Char)}

theorem run_word (h : f (skipBlanks c.rest) = some (a, r)) :
    word f c = some (a, ⟨r, c.inner, false⟩) := by
  simp [word, h]

theorem run_word?_some (h : f (skipBlanks c.rest) = some (a, r)) :
    word? f c = some (some a, ⟨r, c.inner, false⟩) := by
  simp [word?, h]

theorem run_word?_none (h : f (skipBlanks c.rest) = none) : word? f c = some (none, c) := by
  simp [word?, h]

theorem run_expect (h : dropWord? w (skipBlanks c.rest) = some r) :
    expect w c = some ((), ⟨r, c.inner, false⟩) :=
  run_word (by rw [h]; rfl)

theorem run_accept (h : dropWord? w (skipBlanks c.rest) = some r) :
    accept w c = some (true, ⟨r, c.inner, false⟩) :=
  run_map _ (run_word?_some (by rw [h]; rfl))

theorem run_accept_none (h : dropWord? w (skipBlanks c.rest) = none) :
    accept w c = some (false, c) :=
  run_map _ (run_word?_none (by rw [h]; rfl))

theorem run_keyword?_none (h : (name? (skipBlanks c.rest)).filter (fun n => n.1 == w) = none) :
    keyword? w c = some (false, c) :=
  run_map _ (run_word?_none h)

theorem run_gap_none (h : gap? (skipBlanks c.rest) = none) : gap c = some ([], c) := by
  simp [gap, gapRun, h]

theorem run_gaps_none (h : gap? (skipBlanks c.rest) = none) : gaps c = some (false, c) := by
  unfold gaps
  rw [run_bind (run_gap_none h), run_bind (a := ()) (d := c) rfl]
  rfl

/-- What stands behind a value that is complete: nothing continues its last word, steps into it, or
takes it for the operand of an operation. -/
structure Closes (r : List Char) : Prop where
  word : ∀ c, r.head? = some c → nameChar c = false ∧ c ≠ '.'
  step : ∀ c, (skipBlanks r).head? = some c → c ≠ '.' ∧ c ≠ '['
  operator : boundOperator? 1 6 (skipBlanks r) = none
  question : question? (skipBlanks r) = none

def closes (r : List Char) : Bool :=
  r.head?.all (fun c => !nameChar c && c != '.') &&
    (skipBlanks r).head?.all (fun c => c != '.' && c != '[') &&
    (boundOperator? 1 6 (skipBlanks r)).isNone && (question? (skipBlanks r)).isNone

theorem Closes.of_test (h : closes r = true) : Closes r := by
  simp only [closes, Bool.and_eq_true, Option.all_eq_true, Option.isNone_iff_eq_none, bne_iff_ne,
    Bool.not_eq_true'] at h
  exact ⟨h.1.1.1, h.1.1.2, h.1.2, h.2⟩

theorem steps_none (h : ∀ x, (skipBlanks c.rest).head? = some x → x ≠ '.' ∧ x ≠ '[') :
    steps (n + 1) c = some ([], c) := by
  have hpoint (s : List Char) : skipBlanks c.rest ≠ '.' :: s := by
    intro hs
    exact (h '.' (by rw [hs]; rfl)).1 rfl
  have hbracket (s : List Char) : skipBlanks c.rest ≠ '[' :: s := by
    intro hs
    exact (h '[' (by rw [hs]; rfl)).2 rfl
  rw [steps, run_bind (run_peek c), ← run_pure]
  refine congrFun ?_ c
  split
  next heq => exact absurd heq (hpoint _)
  next heq => exact absurd heq (hpoint _)
  next heq => exact absurd heq (hpoint _)
  next heq => exact absurd heq (hbracket _)
  next heq => exact absurd heq (hbracket _)
  next => rfl

theorem operand_of_base {e : Expr} (hbase : base n c = some (e, d)) (hd : Closes d.rest)
    (hn : 0 < n) : operand (n + 1) c = some (e, d) := by
  obtain ⟨n, rfl⟩ := Nat.exists_eq_succ_of_ne_zero (Nat.ne_of_gt hn)
  rw [operand, run_bind hbase, run_bind (steps_none hd.step)]
  rfl

/-- Neither a mark of negation nor of complement comes next, or the minus sign belongs to a
number. -/
def Unmarked (s : List Char) : Prop :=
  ∀ x t, s = x :: t → x ≠ '!' ∧ (x = '-' → (numeral? s).isSome = true)

theorem term_of_base {e : Expr} (hbase : base n c = some (e, d)) (hd : Closes d.rest)
    (hn : 0 < n) (hs : Unmarked (skipBlanks c.rest)) : term (n + 2) c = some (e, d) := by
  rw [term, run_bind (run_peek c), ← operand_of_base hbase hd hn]
  refine congrFun ?_ c
  split
  next heq => exact absurd rfl (hs _ _ heq).1
  next heq => rw [if_pos ((hs _ _ heq).2 rfl)]
  next => rfl

theorem operations_none {p : Phrase} (h : boundOperator? 1 6 (skipBlanks c.rest) = none) :
    operations (n + 1) 1 6 p c = some (p, c) := by
  rw [operations, run_bind (run_word?_none h)]
  rfl

/-- An operand with nothing behind it that continues it is an expression. -/
theorem expression_of_base {e : Expr} (hbase : base n c = some (e, d)) (hd : Closes d.rest)
    (hn : 0 < n) (hs : Unmarked (skipBlanks c.rest)) :
    expression (n + 3) c = some (⟨e, []⟩, d) := by
  rw [expression, run_bind (term_of_base hbase hd hn hs), run_bind (operations_none hd.operator),
    run_bind (run_word?_none hd.question)]
  rfl

end Terraload.Hcl
