import Terraload.Json.Reader
import Terraload.Proofs.Number.Digits
/-!
The written form of a JSON value, as a relation between a value and a text. Blank space may stand
between the parts, and a string may be written with escapes or without. The depth bounds how deep
lists and objects are nested.
-/
namespace Terraload.Json

def Blank (w : Text) : Prop := ∀ c ∈ w, blank c = true

theorem blank_nil : Blank [] := List.forall_mem_nil _

inductive WritesUnit : Nat → Text → Prop
  | digits {a b c d : Char} {n : Nat} (h : hexNat? [a, b, c, d] = some n) :
      WritesUnit n [.char a, .char b, .char c, .char d]

def High (n : Nat) : Prop := 0xD800 ≤ n ∧ n < 0xDC00

def Low (n : Nat) : Prop := 0xDC00 ≤ n ∧ n < 0xE000

def joined (u v : Nat) : CodePoint := .ofNat (0x10000 + (u - 0xD800) * 0x400 + (v - 0xDC00))

def LowNext (s : Text) : Prop :=
  ∃ v p r, WritesUnit v p ∧ Low v ∧ s = .char '\\' :: .char 'u' :: (p ++ r)

/-- What stands between the quotes of a string. A first half with a second one behind it is always
read as their pair; halves that stand alone are written as escapes if `lone` holds. -/
inductive Spells (lone : Bool) : Text → Text → Prop
  | nil : Spells lone [] []
  | plain {c : CodePoint} {t s : Text} (hquote : c ≠ .char '"') (hslash : c ≠ .char '\\')
      (hcontrol : ¬ c.val < 32) (h : Spells lone t s) : Spells lone (c :: t) (c :: s)
  | short {e : CodePoint} {d : Char} {t s : Text} (he : shortEscape? e = some d)
      (h : Spells lone t s) : Spells lone (.char d :: t) (.char '\\' :: e :: s)
  | pair {u v : Nat} {p q t s : Text} (hu : WritesUnit u p) (hv : WritesUnit v q) (hhigh : High u)
      (hlow : Low v) (h : Spells lone t s) :
      Spells lone (joined u v :: t)
        (.char '\\' :: .char 'u' :: (p ++ .char '\\' :: .char 'u' :: (q ++ s)))
  | unit {u : Nat} {p t s : Text} (hu : WritesUnit u p) (hnext : High u → ¬ LowNext s)
      (hlone : lone = true ∨ ¬ (0xD800 ≤ u ∧ u < 0xE000)) (h : Spells lone t s) :
      Spells lone (.ofNat u :: t) (.char '\\' :: .char 'u' :: (p ++ s))

def Digits (ds : List Char) : Prop := ds ≠ [] ∧ ∀ d ∈ ds, decimalDigit d = true

structure Numeral where
  sign : List Char
  whole : List Char
  fraction : List Char
  exponent : List Char
  sign_form : sign = [] ∨ sign = ['-']
  whole_form : whole = ['0'] ∨ Digits whole ∧ whole.head? ≠ some '0'
  fraction_form : fraction = [] ∨ ∃ ds, Digits ds ∧ fraction = '.' :: ds
  exponent_form : exponent = [] ∨ ∃ m sg ds, (m = 'e' ∨ m = 'E') ∧
    (sg = [] ∨ sg = ['+'] ∨ sg = ['-']) ∧ Digits ds ∧ exponent = m :: (sg ++ ds)

namespace Numeral

def text (n : Numeral) : Text :=
  Text.ofChars (n.sign ++ n.whole ++ n.fraction ++ n.exponent)

def value? (n : Numeral) : Option (Except Failure Value) :=
  numberValue? n.sign n.whole n.fraction n.exponent

end Numeral

mutual

/-- The written forms of a value, its lists and objects nested up to a depth. -/
inductive Writes (lone : Bool) : Nat → Value → Text → Prop
  | word {depth : Nat} {w : String} {v : Value} (h : (w, v) ∈ words) :
      Writes lone depth v (Terraload.text w)
  | number {depth : Nat} {v : Value} (n : Numeral) (h : n.value? = some (.ok v)) :
      Writes lone depth v n.text
  | text {depth : Nat} {t s : Text} (h : Spells lone t s) :
      Writes lone depth (.text t) (.char '"' :: (s ++ [.char '"']))
  | noItems {depth : Nat} {w : Text} (hw : Blank w) :
      Writes lone (depth + 1) (.list []) (.char '[' :: (w ++ [.char ']']))
  | items {depth : Nat} {w s : Text} {vs : List Value} (hw : Blank w)
      (h : WritesItems lone depth vs s) :
      Writes lone (depth + 1) (.list vs) (.char '[' :: (w ++ (s ++ [.char ']'])))
  | noMembers {depth : Nat} {w : Text} (hw : Blank w) :
      Writes lone (depth + 1) (.object []) (.char '{' :: (w ++ [.char '}']))
  | members {depth : Nat} {w s : Text} {ms : List (Text × Value)} (hw : Blank w)
      (h : WritesMembers lone depth ms s) :
      Writes lone (depth + 1) (.object (Members.putAll [] ms))
        (.char '{' :: (w ++ (s ++ [.char '}'])))

inductive WritesItems (lone : Bool) : Nat → List Value → Text → Prop
  | last {depth : Nat} {v : Value} {s w : Text} (h : Writes lone depth v s) (hw : Blank w) :
      WritesItems lone depth [v] (s ++ w)
  | more {depth : Nat} {v : Value} {s w x r : Text} {vs : List Value} (h : Writes lone depth v s)
      (hw : Blank w) (hx : Blank x) (hr : WritesItems lone depth vs r) :
      WritesItems lone depth (v :: vs) (s ++ (w ++ .char ',' :: (x ++ r)))

inductive WritesMembers (lone : Bool) : Nat → List (Text × Value) → Text → Prop
  | last {depth : Nat} {k p w x s y : Text} {v : Value} (hk : Spells lone k p) (hw : Blank w)
      (hx : Blank x) (h : Writes lone depth v s) (hy : Blank y) :
      WritesMembers lone depth [(k, v)]
        (.char '"' :: (p ++ .char '"' :: (w ++ .char ':' :: (x ++ (s ++ y)))))
  | more {depth : Nat} {k p w x s y z r : Text} {v : Value} {ms : List (Text × Value)}
      (hk : Spells lone k p) (hw : Blank w) (hx : Blank x) (h : Writes lone depth v s)
      (hy : Blank y) (hz : Blank z) (hr : WritesMembers lone depth ms r) :
      WritesMembers lone depth ((k, v) :: ms)
        (.char '"' :: (p ++ .char '"' :: (w ++ .char ':' :: (x ++ (s ++ (y ++ .char ',' ::
          (z ++ r)))))))

end

def WritesText (lone : Bool) (depth : Nat) (v : Value) (s : Text) : Prop :=
  ∃ w u x, Blank w ∧ Writes lone depth v u ∧ Blank x ∧ s = w ++ (u ++ x)

end Terraload.Json
