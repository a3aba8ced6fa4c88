import Terraload.Proofs.Hcl.Run
import Terraload.Proofs.Hcl.Token
/-!
Reading operands: strings, numbers, constants and names, and the steps through a list and an object.
-/
namespace Terraload.Hcl

open Reader

variable {n : Nat} {c d : Cursor} {x : Char} {s t r k cs : List Char} {e : Expr} {es : List Expr}
  {i : Item} {is : List Item}

def opensWord (x : Char) : Bool := decimalDigit x || x == '-' || nameStart x

theorem opensWord_ne (hx : opensWord x = true) :
    x ≠ '"' ∧ x ≠ '\\' ∧ x ≠ '<' ∧ x ≠ '[' ∧ x ≠ '{' ∧ x ≠ '(' :=
  ⟨ne_of_test hx rfl, ne_of_test hx rfl, ne_of_test hx rfl, ne_of_test hx rfl, ne_of_test hx rfl,
    ne_of_test hx rfl⟩

theorem base_numeral {d : Numeral} (hs : skipBlanks c.rest = x :: t) (hx : opensWord x = true)
    (h : numeral? (x :: t) = some (d, r)) :
    base (n + 1) c = some (.numeral d, ⟨r, c.inner, false⟩) := by
  obtain ⟨h1, h2, h3, h4, h5, h6⟩ := opensWord_ne hx
  have hread := run_word?_some (c := c) (f := numeral?) (by rw [hs]; exact h)
  rw [base, run_bind (run_peek c)]
  simp only [hs, List.cons.injEq, h1, h2, h3, h4, h5, h6, false_and, imp_self, implies_true]
  rw [run_bind hread]
  rfl

/-- Whether a name is one of the words that cannot start a value. -/
theorem run_firm (hs : skipBlanks c.rest = k ++ r) (hk : IsName k) (hr : Without nameChar r)
    (hword : k ∉ keyWords) :
    unlessFirm (((name? (skipBlanks c.rest)).map fun w => keyWords.contains w.1).getD false) c =
      some ((), c) := by
  refine run_unlessFirm ?_ c
  rw [hs, hk.name? hr]
  simpa using hword

def wordExpr (k : Name) : Expr :=
  match constant? k with
  | some v => .constant v
  | none => .name k

theorem base_word (hs : skipBlanks c.rest = k ++ r) (hk : IsName k) (hr : Without nameChar r)
    (hword : k ∉ keyWords) (hcall : constant? k = none →
      dropWord? [':', ':'] (skipBlanks r) = none ∧ dropWord? ['('] (skipBlanks r) = none) :
    base (n + 1) c = some (wordExpr k, ⟨r, c.inner, false⟩) := by
  have hname := run_word (c := c) (f := name?) (by rw [hs]; exact hk.name? hr)
  have hfirm := run_firm hs hk hr hword
  obtain ⟨x, xs, rfl, hx, -⟩ := hk
  obtain ⟨h1, h2, h3, h4, h5, h6⟩ := opensWord_ne (x := x) (by simp [opensWord, hx])
  have hnumeral : numeral? (skipBlanks c.rest) = none := by
    rw [hs]
    exact numeral?_name hx _
  rw [base, run_bind (run_peek c)]
  simp only [hs, List.cons_append, List.cons.injEq, h1, h2, h3, h4, h5, h6, false_and, imp_self,
    implies_true]
  rw [run_bind (run_word?_none hnumeral)]
  dsimp only
  rw [run_bind (run_peek c), run_bind hfirm, name, run_bind hname]
  unfold wordExpr
  cases hconstant : constant? (x :: xs) with
  | some v => rfl
  | none =>
    obtain ⟨hpath, hopen⟩ := hcall hconstant
    dsimp only
    rw [run_bind (run_accept_none hpath), if_neg (by decide), run_bind (run_accept_none hopen)]
    rfl

def PlainChar (x : Char) : Prop :=
  32 ≤ x.toNat ∧ x ≠ '"' ∧ x ≠ '\\' ∧ x ≠ '$' ∧ x ≠ '%'

theorem stringChars_plain (hcs : ∀ x ∈ cs, PlainChar x) (r : List Char) :
    stringChars (cs ++ '"' :: r) = (cs, '"' :: r) := by
  induction cs with
  | nil => rfl
  | cons x cs ih =>
    obtain ⟨-, h1, h2, h3, h4⟩ := hcs x (by simp)
    have ih := ih fun y hy => hcs y (by simp [hy])
    rw [List.cons_append, stringChars.eq_9 x _ (by simpa using h1) (by simp [h3]) (by simp [h4])
      (by simp [h3]) (by simp [h4]) (by simp [h2]) (by simp [h2]) (by simp [h2]), ih]

def literal (cs : List Char) : List Piece := if cs.isEmpty then [] else [.chars cs]

theorem paired_literal (cs : List Char) : Piece.paired [] (literal cs) = true := by
  unfold literal
  split <;> rfl

theorem pieces_close (hs : c.rest = '"' :: r) :
    pieces (n + 1) c = some ([], ⟨r, c.inner, false⟩) := by
  rw [pieces, run_bind (run_raw c)]
  simp only [hs]
  rw [run_bind (run_setRest r c)]
  rfl

/-- Literal characters end only where a string or its literal part does. -/
theorem stringChars_nil (h : stringChars s = ([], '"' :: r)) : s = '"' :: r := by
  unfold stringChars at h
  split at h <;> simp_all

theorem pieces_chars (hs : stringChars c.rest = (cs, r)) (hcs : cs ≠ []) :
    pieces (n + 1) c =
      (do return .chars cs :: (← pieces n) : Reader (List Piece)) ⟨r, c.inner, false⟩ := by
  have hmark (s : List Char) (h : stringChars s = ([], s)) : c.rest ≠ s := by
    intro heq
    subst heq
    rw [h] at hs
    exact hcs (Prod.mk.inj hs).1.symm
  rw [pieces, run_bind (run_raw c)]
  cases hrest : c.rest with
  | nil => exact absurd hrest (hmark _ rfl)
  | cons x t =>
    have h1 (u : List Char) : ¬ (x = '"' ∧ t = u) := by
      rintro ⟨rfl, rfl⟩
      exact hmark _ (by rw [stringChars]) hrest
    have h2 (u : List Char) : ¬ (x = '$' ∧ t = '$' :: '{' :: u) := by
      rintro ⟨rfl, rfl⟩
      exact hmark _ (by rw [stringChars]) hrest
    have h3 (u : List Char) : ¬ (x = '%' ∧ t = '%' :: '{' :: u) := by
      rintro ⟨rfl, rfl⟩
      exact hmark _ (by rw [stringChars]) hrest
    have h4 (u : List Char) : ¬ (x = '$' ∧ t = '{' :: u) := by
      rintro ⟨rfl, rfl⟩
      exact hmark _ (by rw [stringChars]) hrest
    have h5 (u : List Char) : ¬ (x = '%' ∧ t = '{' :: u) := by
      rintro ⟨rfl, rfl⟩
      exact hmark _ (by rw [stringChars]) hrest
    have hne : (!cs.isEmpty) = true := by simpa using hcs
    rw [hrest] at hs
    simp only [List.cons.injEq, h1, h2, h3, h4, h5, imp_self, implies_true]
    rw [hs]
    dsimp only
    rw [run_bind (run_guard hne c), run_bind (run_setRest r c)]

theorem pieces_literal (hs : stringChars c.rest = (cs, '"' :: r)) :
    pieces (n + 2) c = some (literal cs, ⟨r, c.inner, false⟩) := by
  by_cases hcs : cs = []
  · subst hcs
    rw [pieces_close (stringChars_nil hs)]
    rfl
  · have hempty : cs.isEmpty = false := by simpa using hcs
    rw [pieces_chars hs hcs, run_bind (pieces_close rfl)]
    simp only [literal, hempty]
    rfl

theorem base_string (hs : skipBlanks c.rest = '"' :: s) (h : stringChars s = (cs, '"' :: r)) :
    base (n + 3) c = some (.template (literal cs), ⟨r, c.inner, false⟩) := by
  have hpieces := run_quiet (pieces_literal (n := n) (c := ⟨s, c.inner, false⟩) h)
  rw [base, run_bind (run_peek c)]
  simp only [hs]
  rw [run_bind (run_setRest s c), run_bind hpieces, run_bind (run_guard (paired_literal cs) _)]
  rfl

theorem keywordKey?_none (h : (name? s).filter (fun n => keyWords.contains n.1) = none) :
    keywordKey? s = none := by
  unfold keywordKey?
  cases hname : name? s with
  | none => rfl
  | some w =>
    rw [hname] at h
    have hw : keyWords.contains w.1 = false := by simpa using h
    simp only [Option.filter, hw, Bool.false_and]
    rfl

theorem keyword_none (h : (name? s).filter (fun n => keyWords.contains n.1) = none) :
    (name? s).filter (fun n => n.1 == forWord) = none := by
  cases hname : name? s with
  | none => rfl
  | some w =>
    rw [hname] at h
    have hw : w.1 ∉ keyWords := by simpa using h
    have hfor : w.1 ≠ forWord := by
      intro heq
      exact hw (by rw [heq]; decide)
    simpa using hfor

theorem base_tuple (hs : skipBlanks c.rest = '[' :: s) (hgap : gap? (skipBlanks s) = none)
    (hfor : (name? (skipBlanks s)).filter (fun n => n.1 == forWord) = none)
    (hes : tupleItems n ⟨s, c.inner, false⟩ = some (es, d)) :
    base (n + 1) c = some (.tuple es, d) := by
  rw [base, run_bind (run_peek c)]
  simp only [hs]
  rw [run_bind (run_setRest s c), run_bind (run_gaps_none hgap), run_bind (run_keyword?_none hfor),
    if_neg (by decide), run_bind hes]
  rfl

theorem base_object (hs : skipBlanks c.rest = '{' :: s) (hgap : gap? (skipBlanks s) = none)
    (hword : (name? (skipBlanks s)).filter (fun n => keyWords.contains n.1) = none)
    (his : objectItems n ⟨s, c.inner, false⟩ = some (is, d)) :
    base (n + 1) c = some (.object is, d) := by
  rw [base, run_bind (run_peek c)]
  simp only [hs]
  rw [run_bind (run_setRest s c), run_bind (run_gaps_none hgap), run_bind (run_peek _),
    if_neg (by rw [keywordKey?_none hword]; decide),
    run_bind (run_keyword?_none (keyword_none hword)), if_neg (by decide), run_bind his]
  rfl

theorem tupleItems_close (hs : dropWord? [']'] (skipBlanks c.rest) = some r) :
    tupleItems (n + 1) c = some ([], ⟨r, c.inner, false⟩) := by
  rw [tupleItems, run_bind (run_accept hs), if_pos rfl]
  rfl

theorem tupleItems_last (hopen : dropWord? [']'] (skipBlanks c.rest) = none)
    (he : expression n c = some (⟨e, []⟩, ⟨']' :: r, c.inner, false⟩)) :
    tupleItems (n + 1) c = some ([e], ⟨r, c.inner, false⟩) := by
  rw [tupleItems, run_bind (run_accept_none hopen), if_neg (by decide), run_bind he,
    run_bind (run_gaps_none rfl), run_bind (run_accept_none rfl), if_neg (by decide),
    run_bind (run_expect (r := r) rfl)]
  rfl

theorem tupleItems_more (hopen : dropWord? [']'] (skipBlanks c.rest) = none)
    (he : expression n c = some (⟨e, []⟩, ⟨',' :: t, c.inner, false⟩))
    (hgap : gap? (skipBlanks t) = none)
    (hes : tupleItems n ⟨t, c.inner, false⟩ = some (es, d)) :
    tupleItems (n + 1) c = some (e :: es, d) := by
  rw [tupleItems, run_bind (run_accept_none hopen), if_neg (by decide), run_bind he,
    run_bind (run_gaps_none rfl), run_bind (run_accept (r := t) rfl), if_pos rfl,
    run_bind (run_gaps_none hgap), run_bind hes]
  rfl

theorem objectItems_close (hs : dropWord? ['}'] (skipBlanks c.rest) = some r) :
    objectItems (n + 1) c = some ([], ⟨r, c.inner, false⟩) := by
  rw [objectItems, run_bind (run_accept hs), if_pos rfl]
  rfl

theorem objectItems_last (hopen : dropWord? ['}'] (skipBlanks c.rest) = none)
    (hi : objectItem (n + 1) c = some (i, ⟨'}' :: r, c.inner, false⟩)) :
    objectItems (n + 2) c = some ([i], ⟨r, c.inner, false⟩) := by
  rw [objectItems, run_bind (run_accept_none hopen), if_neg (by decide), run_bind (run_quiet hi),
    run_bind (run_gaps_none rfl), run_bind (run_accept_none rfl), run_bind (run_gaps_none rfl),
    run_bind (objectItems_close rfl)]
  rfl

theorem objectItems_more (hopen : dropWord? ['}'] (skipBlanks c.rest) = none)
    (hi : objectItem n c = some (i, ⟨',' :: t, c.inner, false⟩))
    (hgap : gap? (skipBlanks t) = none)
    (his : objectItems n ⟨t, c.inner, false⟩ = some (is, d)) :
    objectItems (n + 1) c = some (i :: is, d) := by
  rw [objectItems, run_bind (run_accept_none hopen), if_neg (by decide), run_bind (run_quiet hi),
    run_bind (run_gaps_none rfl), run_bind (run_accept (r := t) rfl),
    run_bind (run_gaps_none hgap), run_bind his]
  rfl

end Terraload.Hcl
