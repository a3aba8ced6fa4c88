import Terraload.Number.Digits
/-!
Binary64 numbers as exact values, and the reading of a decimal with one correct rounding.
-/
namespace Terraload

/-- NaN, an infinity, or a number `± mantissa * 2 ^ exponent`. A finite number has a mantissa below
`2 ^ 53` and, unless its exponent is -1074, of at least `2 ^ 52`. -/
inductive Binary64
  | nan
  | infinite (negative : Bool)
  | finite (negative : Bool) (mantissa : Nat) (exponent : Int)
  deriving DecidableEq

namespace Binary64

def neg : Binary64 → Binary64
  | .nan => .nan
  | .infinite s => .infinite (!s)
  | .finite s m e => .finite (!s) m e

def roundQuotient (num den : Nat) : Nat :=
  let q := num / den
  let r := 2 * (num % den)
  if den < r || (r == den && q % 2 == 1) then q + 1 else q

/-- The number nearest to `num / den`; beyond the largest finite one an infinity. -/
def ofRatio (negative : Bool) (num den : Nat) : Binary64 :=
  if num = 0 then .finite negative 0 (-1074)
  else
    let guess : Int := (Nat.log2 num : Int) - (Nat.log2 den : Int) - 52
    let scaled (e : Int) : Nat × Nat := (num * Nat.pow 2 (-e).toNat, den * Nat.pow 2 e.toNat)
    let e := if (scaled guess).1 < Nat.pow 2 52 * (scaled guess).2 then guess - 1 else guess
    let e := max e (-1074)
    let m := roundQuotient (scaled e).1 (scaled e).2
    let (m, e) := if m = Nat.pow 2 53 then (Nat.pow 2 52, e + 1) else (m, e)
    if 971 < e then .infinite negative else .finite negative m e

def ofDecimal (negative : Bool) (digits : Nat) (power : Int) : Binary64 :=
  if digits = 0 then .finite negative 0 (-1074)
  else
    let top := power + (natDigits digits).length
    if 400 < top then .infinite negative
    else if top < -400 then .finite negative 0 (-1074)
    else ofRatio negative (digits * Nat.pow 10 power.toNat) (Nat.pow 10 (-power).toNat)

def read? (cs : List Char) : Option Binary64 :=
  let (negative, cs) := match cs with
    | '-' :: r => (true, r)
    | '+' :: r => (false, r)
    | r => (false, r)
  let whole := cs.takeWhile decimalDigit
  let rest := cs.dropWhile decimalDigit
  let (fraction, rest) := match rest with
    | '.' :: r => (r.takeWhile decimalDigit, r.dropWhile decimalDigit)
    | r => ([], r)
  if whole.isEmpty && fraction.isEmpty then none
  else
    let shift : Option Int := match rest with
      | [] => some 0
      | c :: r =>
        if c = 'e' || c = 'E' then
          let (minus, r) := match r with
            | '-' :: r => (true, r)
            | '+' :: r => (false, r)
            | r => (false, r)
          if r.isEmpty || !r.all decimalDigit then none
          else some (if minus then - (natOfDigits r : Int) else natOfDigits r)
        else none
    shift.map fun s =>
      ofDecimal negative (natOfDigits (whole ++ fraction)) (s - fraction.length)

def toInt? : Binary64 → Option Int
  | .finite s m e =>
    let n : Option Nat :=
      if 0 ≤ e then some (m * Nat.pow 2 e.toNat)
      else if m % Nat.pow 2 (-e).toNat = 0 then some (m / Nat.pow 2 (-e).toNat) else none
    n.map fun n => if s then - (n : Int) else n
  | _ => none

end Binary64

end Terraload
