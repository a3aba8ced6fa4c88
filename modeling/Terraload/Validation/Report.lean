import Terraload.Encoding
import Terraload.Validation
import Terraload.Value.Literal
/-!
Problems as a text of several lines: how many there are, and for each of them its place, its wording
and the input it was found in. A long input is shown by its two ends.
-/
namespace Terraload

def Value.part? : List PlaceStep → Value → Option Value
  | [], v => some v
  | .member n :: ps, .object ms => (Members.get? n ms).bind (part? ps)
  | .item i :: ps, .list vs => vs[i]?.bind (part? ps)
  | _, _ => none

def escapeByte (quote : Char) (b : UInt8) : Text :=
  if b < 0x80 then CodePoint.escape quote (.ofNat b.toNat)
  else Text.ofChars ('\\' :: 'x' :: hexDigits 2 b.toNat)

def literalBytes (bs : Bytes) : Text :=
  let q := Text.quote (bs.map fun b => .ofNat b.toNat)
  .char 'b' :: .char q :: (bs.flatMap (escapeByte q) ++ [.char q])

namespace Text

def byteCount (t : Text) : Nat := (Encoding.encode t).length

def fitting (room : Nat) : Text → Text
  | [] => []
  | c :: t =>
    let n := byteCount [c]
    if n ≤ room then c :: fitting (room - n) t else []

def shorten (room : Nat) (t : Text) : Text :=
  if t.byteCount ≤ room then t
  else
    let half := (room + 1) / 2
    t.fitting half ++ text "..." ++ (fitting (half - 1) t.reverse).reverse

end Text

def shownInput : Nat := 50

inductive ReportSubject
  | bytes (bs : Bytes)
  | value (v : Value)

def ReportSubject.shown (s : ReportSubject) (place : List PlaceStep) : Text :=
  match s with
  | .bytes bs => literalBytes bs
  | .value v => ((v.part? place).map Value.literal).getD []

def PlaceStep.shown : PlaceStep → Text
  | .member n => if n.contains (.char '.') then text "\x60" ++ n ++ text "\x60" else n
  | .item i => Text.ofChars (natDigits i)

namespace Problem

def wording (p : Problem) : Text := text (p.kind.message?.getD "Invalid JSON")

def lines (subject : ReportSubject) (p : Problem) : List Text :=
  let place := Text.join (text ".") (p.place.map PlaceStep.shown)
  let line := text "  " ++ p.wording ++ text " [type=" ++ text p.kind.code ++ text ", input_value="
    ++ (subject.shown p.place).shorten shownInput ++ text "]"
  if p.place.isEmpty then [line] else [place, line]

def headline (title : String) (count : Nat) : Text :=
  Text.ofChars (natDigits count)
    ++ text (if count = 1 then " validation error for " else " validation errors for ")
    ++ text title

def report (title : String) (subject : ReportSubject) (ps : List Problem) : Text :=
  Text.join (text "\n") (headline title ps.length :: ps.flatMap (lines subject))

end Problem

end Terraload
