import Terraload.Number.Binary64
/-!
The shortest decimal of a binary64 number: the fewest digits that read back as the number, and of
those the nearest to it.
-/
namespace Terraload

/-- The decimal `0.d₁d₂… * 10 ^ point`. -/
structure Decimal where
  digits : List Char
  point : Int

namespace Binary64

def decimalPoint (num den : Nat) : Nat → Int → Int
  | 0, point => point
  | n + 1, point =>
    if num * Nat.pow 10 (-point).toNat < den * Nat.pow 10 point.toNat then point
    else decimalPoint num den n (point + 1)

/-- The numerators of a positive number and of the ends of the interval that rounds to it, over one
denominator. -/
structure Interval where
  value : Nat
  low : Nat
  high : Nat
  den : Nat
  closed : Bool

def interval (m : Nat) (e : Int) : Interval :=
  let up := Nat.pow 2 e.toNat
  let below := if m = Nat.pow 2 52 ∧ -1074 < e then 1 else 2
  { value := 4 * m * up, low := (4 * m - below) * up, high := (4 * m + 2) * up
    den := 4 * Nat.pow 2 (-e).toNat, closed := m % 2 == 0 }

def Interval.holds (i : Interval) (c : Nat) (t : Int) : Bool :=
  let x := c * Nat.pow 10 t.toNat * i.den
  let scale := Nat.pow 10 (-t).toNat
  if i.closed then i.low * scale ≤ x && x ≤ i.high * scale
  else i.low * scale < x && x < i.high * scale

/-- Of the two neighbours of the value on the grid `10 ^ t` the one in the interval, the nearer if
both are, and the even one if both are as near. -/
def Interval.onGrid (i : Interval) (t : Int) : Option Nat :=
  let num := i.value * Nat.pow 10 (-t).toNat
  let unit := i.den * Nat.pow 10 t.toNat
  let c := num / unit
  match i.holds c t, i.holds (c + 1) t with
  | true, false => some c
  | false, true => some (c + 1)
  | false, false => none
  | true, true =>
    let r := 2 * (num % unit)
    if r < unit || (r == unit && c % 2 == 0) then some c else some (c + 1)

def Interval.shortest (i : Interval) (point : Int) : Nat → Nat → Nat × Int
  | 0, size => (i.value / i.den, point - size)
  | n + 1, size =>
    match i.onGrid (point - size) with
    | some c => (c, point - size)
    | none => i.shortest point n (size + 1)

def shortest (m : Nat) (e : Int) : Decimal :=
  let i := interval m e
  let guess : Int := ((Nat.log2 i.value : Int) - (Nat.log2 i.den : Int) - 1) * 30103 / 100000
  let point := decimalPoint i.value i.den 8 (guess - 1)
  let (c, t) := i.shortest point 17 1
  let ds := natDigits c
  let kept := (ds.reverse.dropWhile (· == '0')).reverse
  { digits := kept, point := t + ds.length }

end Binary64

/-- How a decimal is laid out. Points from `lowest` to `highest` are written in positional notation,
others with an exponent of at least `exponentWidth` digits. -/
structure DecimalLayout where
  lowest : Int
  highest : Int
  exponentWidth : Nat

def Binary64.layout : DecimalLayout := ⟨-3, 16, 2⟩

def Decimal.positional (d : Decimal) : List Char :=
  if d.point ≤ 0 then '0' :: '.' :: (List.replicate (-d.point).toNat '0' ++ d.digits)
  else
    let n := d.point.toNat
    let whole := d.digits.take n ++ List.replicate (n - d.digits.length) '0'
    match d.digits.drop n with
    | [] => whole ++ ['.', '0']
    | fraction => whole ++ '.' :: fraction

def Decimal.scientific (width : Nat) (d : Decimal) : List Char :=
  let head := match d.digits with
    | [] => ['0']
    | [c] => [c]
    | c :: r => c :: '.' :: r
  let e := d.point - 1
  let ds := natDigits e.natAbs
  head ++ 'e' :: (if e < 0 then '-' else '+') :: (List.replicate (width - ds.length) '0' ++ ds)

def Binary64.render : Binary64 → List Char
  | .nan => ['n', 'a', 'n']
  | .infinite s => (if s then ['-'] else []) ++ ['i', 'n', 'f']
  | .finite s m e =>
    let body :=
      if m = 0 then ['0', '.', '0']
      else
        let d := shortest m e
        if layout.lowest ≤ d.point ∧ d.point ≤ layout.highest then d.positional
        else d.scientific layout.exponentWidth
    if s then '-' :: body else body

end Terraload
