import Terraload.Hcl.Evaluation
import Terraload.Proofs.Hcl.Operand
import Terraload.Proofs.Members
/-!
Plain data in the native syntax: strings without marks, natural numbers, truth values, lists and
objects of them, in one fixed layout, as a relation between a value and its characters.
-/
namespace Terraload.Hcl

variable {x y : Char} {k cs s r : List Char} {v : Value}

structure Key (k : Name) : Prop where
  isName : IsName k
  notWord : k ∉ keyWords
  notConstant : constant? k = none
  single : ¬ ['_', '_'] <+: k

mutual

inductive Plain : Value → List Char → Prop
  | text {cs : List Char} (h : ∀ x ∈ cs, PlainChar x) :
      Plain (.text (Text.ofChars cs)) ('"' :: (cs ++ ['"']))
  | integer (n : Nat) (h : (natDigits n).length ≤ digitLimit) : Plain (.integer n) (natDigits n)
  | yes : Plain (.boolean true) (chars "true")
  | no : Plain (.boolean false) (chars "false")
  | list {vs : List Value} {s : List Char} (h : PlainItems vs s) :
      Plain (.list vs) ('[' :: (s ++ [']']))
  | object {ms : Members Value} {s : List Char} (hnames : ms.names.Nodup)
      (h : PlainMembers ms s) : Plain (.object ms) ('{' :: (s ++ ['}']))

inductive PlainItems : List Value → List Char → Prop
  | nil : PlainItems [] []
  | last {v : Value} {s : List Char} (h : Plain v s) : PlainItems [v] s
  | more {v w : Value} {vs : List Value} {s r : List Char} (h : Plain v s)
      (hr : PlainItems (w :: vs) r) : PlainItems (v :: w :: vs) (s ++ ',' :: ' ' :: r)

inductive PlainMembers : Members Value → List Char → Prop
  | nil : PlainMembers [] []
  | last {k : Name} {v : Value} {s : List Char} (hk : Key k) (h : Plain v s) :
      PlainMembers [(Text.ofChars k, v)] (k ++ ' ' :: '=' :: ' ' :: s)
  | more {k : Name} {v : Value} {m : Text × Value} {ms : Members Value} {s r : List Char}
      (hk : Key k) (h : Plain v s) (hr : PlainMembers (m :: ms) r) :
      PlainMembers ((Text.ofChars k, v) :: m :: ms) (k ++ ' ' :: '=' :: ' ' :: (s ++ ',' :: ' ' :: r))

end

inductive PlainLines : Document → List Char → Prop
  | nil : PlainLines [] []
  | line {k : Name} {v : Value} {s r : List Char} {d : Document} (hk : Key k) (h : Plain v s)
      (hr : PlainLines d r) :
      PlainLines ((Text.ofChars k, v) :: d) (k ++ ' ' :: '=' :: ' ' :: (s ++ '\n' :: r))

structure PlainDocument (d : Document) (s : List Char) : Prop where
  names : d.names.Nodup
  lines : PlainLines d s

def opensPlain (x : Char) : Bool :=
  x == '"' || decimalDigit x || x == '[' || x == '{' || nameStart x

theorem Plain.head (h : Plain v s) : ∃ x t, s = x :: t ∧ opensPlain x = true := by
  cases h with
  | text h => exact ⟨_, _, rfl, rfl⟩
  | integer n h =>
    obtain ⟨d, ds, hd, hdigit⟩ := natDigits_cons n
    exact ⟨d, ds, hd, by simp [opensPlain, hdigit]⟩
  | yes => exact ⟨_, _, rfl, rfl⟩
  | no => exact ⟨_, _, rfl, rfl⟩
  | list h => exact ⟨_, _, rfl, rfl⟩
  | object hnames h => exact ⟨_, _, rfl, rfl⟩

theorem Key.head (hk : Key k) : ∃ x t, k = x :: t ∧ nameStart x = true ∧ opensPlain x = true := by
  obtain ⟨x, t, rfl, hx, -⟩ := hk.isName
  exact ⟨x, t, rfl, hx, by simp [opensPlain, hx]⟩

theorem unescape_plain (hcs : ∀ x ∈ cs, x ≠ '\\') : unescape cs = cs := by
  induction cs with
  | nil => rfl
  | cons x cs ih =>
    have hx := hcs x (by simp)
    have ih := ih fun y hy => hcs y (by simp [hy])
    simp [unescape, hx, ih]

theorem templateText_literal (cs : List Char) : templateText (literal cs) = .ok (unescape cs) := by
  unfold literal
  split
  next h =>
    rw [List.isEmpty_iff.mp h]
    rfl
  next =>
    rw [templateText, templateText]
    simp [pure, Except.pure, bind, Except.bind]

theorem value_literal (cs : List Char) :
    (Expr.template (literal cs)).value = .ok (.text (Text.ofChars (unescape cs))) := by
  rw [Expr.value, templateText_literal]
  rfl

/-- A minus sign turns the sign of the digits behind it. -/
theorem readInteger_digits {ds : List Char} (hds : ∀ d ∈ ds, decimalDigit d = true)
    (h : ds.length ≤ digitLimit) :
    readInteger ds = .ok (natOfDigits ds : Int) ∧
      readInteger ('-' :: ds) = .ok (-(natOfDigits ds : Int)) := by
  have hfilter : ds.filter decimalDigit = ds := List.filter_eq_self.mpr hds
  have hminus : ('-' :: ds).filter decimalDigit = ds := by
    rw [List.filter_cons_of_neg (by decide), hfilter]
  have hlength : ¬ digitLimit < ds.length := Nat.not_lt.mpr h
  exact ⟨by simp only [readInteger, hfilter, if_neg hlength, intOfDigits_of_digits hds],
    by simp only [readInteger, hminus, if_neg hlength, intOfDigits]⟩

theorem value_digits {ds : List Char} (hds : ∀ d ∈ ds, decimalDigit d = true)
    (h : ds.length ≤ digitLimit) :
    (Expr.numeral (.integer ds)).value = .ok (.integer (natOfDigits ds)) := by
  rw [Expr.value, Numeral.value, (readInteger_digits hds h).1]
  rfl

end Terraload.Hcl
