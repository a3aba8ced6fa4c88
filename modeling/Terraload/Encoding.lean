import Terraload.Text
import Terraload.Number.Digits
/-!
Texts from bytes: UTF-8, UTF-16 and UTF-32, with the cause and the place of a failure, and the choice
among them by the first bytes.
-/
namespace Terraload

abbrev Bytes := List UInt8

namespace Encoding

inductive Codec
  | utf8 | utf16le | utf16be | utf32le | utf32be
  deriving DecidableEq

def Codec.name : Codec → String
  | .utf8 => "utf-8"
  | .utf16le => "utf-16-le"
  | .utf16be => "utf-16-be"
  | .utf32le => "utf-32-le"
  | .utf32be => "utf-32-be"

inductive Reason
  /-- The first byte starts none. -/
  | start
  /-- A later byte does not continue the ones before it. -/
  | continuation
  /-- The bytes end inside a code point. -/
  | ending
  /-- The bytes end inside a unit. -/
  | truncated
  | range
  deriving DecidableEq

def Reason.message : Reason → String
  | .start => "invalid start byte"
  | .continuation => "invalid continuation byte"
  | .ending => "unexpected end of data"
  | .truncated => "truncated data"
  | .range => "code point not in range(0x110000)"

structure Problem where
  codec : Codec
  position : Nat
  bytes : Bytes
  reason : Reason
  deriving DecidableEq

def Problem.message (p : Problem) : List Char :=
  let place := match p.bytes with
    | [b] => "byte 0x".toList ++ hexDigits 2 b.toNat ++ " in position ".toList
        ++ natDigits p.position
    | bs => "bytes in position ".toList ++ natDigits p.position ++ '-' ::
        natDigits (p.position + bs.length - 1)
  '\x27' :: (p.codec.name.toList ++ "\x27 codec can\x27t decode ".toList ++ place ++ ':' :: ' ' ::
    p.reason.message.toList)

def tail (b : UInt8) : Bool := 0x80 ≤ b.toNat && b.toNat < 0xC0

def secondRange (a : Nat) : Nat × Nat :=
  if a = 0xE0 then (0xA0, 0xBF)
  else if a = 0xED then (0x80, 0x9F)
  else if a = 0xF0 then (0x90, 0xBF)
  else if a = 0xF4 then (0x80, 0x8F)
  else (0x80, 0xBF)

def second (a : Nat) (b : UInt8) : Bool :=
  (secondRange a).1 ≤ b.toNat && b.toNat ≤ (secondRange a).2

def low (b : UInt8) : Nat := b.toNat - 0x80

/-- What a decoder makes of the next bytes: a code point and the rest, or a reason and the number of
bytes it concerns. -/
abbrev Step (α : Type) := Except (Reason × Nat) (α × Bytes)

def nextChar : Bytes → Step Char
  | [] => .error (.ending, 0)
  | a :: r =>
    let n := a.toNat
    if n < 0x80 then .ok (Char.ofNat n, r)
    else if n < 0xC2 || 0xF4 < n then .error (.start, 1)
    else match r with
      | [] => .error (.ending, 1)
      | b :: r =>
        if !second n b then .error (.continuation, 1)
        else if n < 0xE0 then .ok (Char.ofNat ((n - 0xC0) * 64 + low b), r)
        else match r with
          | [] => .error (.ending, 2)
          | c :: r =>
            if !tail c then .error (.continuation, 2)
            else if n < 0xF0 then
              .ok (Char.ofNat (((n - 0xE0) * 64 + low b) * 64 + low c), r)
            else match r with
              | [] => .error (.ending, 3)
              | d :: r =>
                if !tail d then .error (.continuation, 3)
                else .ok (Char.ofNat ((((n - 0xF0) * 64 + low b) * 64 + low c) * 64 + low d), r)

def nextCodePoint (bs : Bytes) : Step CodePoint :=
  match nextChar bs with
  | .ok (c, r) => .ok (.char c, r)
  | .error e =>
    match bs with
    | a :: b :: c :: r =>
      if a = 0xED ∧ 0xA0 ≤ b.toNat ∧ b.toNat < 0xC0 ∧ tail c then
        .ok (.ofNat ((0xD * 64 + low b) * 64 + low c), r)
      else .error e
    | _ => .error e

def unit16 (big : Bool) (a b : UInt8) : Nat :=
  if big then a.toNat * 256 + b.toNat else b.toNat * 256 + a.toNat

/-- The next code point of UTF-16; a surrogate without its partner stands alone. -/
def next16 (big : Bool) : Bytes → Step CodePoint
  | a :: b :: r =>
    let n := unit16 big a b
    if 0xD800 ≤ n ∧ n < 0xDC00 then
      match r with
      | c :: d :: r' =>
        let m := unit16 big c d
        if 0xDC00 ≤ m ∧ m < 0xE000 then
          .ok (.ofNat (0x10000 + (n - 0xD800) * 0x400 + (m - 0xDC00)), r')
        else .ok (.ofNat n, r)
      | _ => .ok (.ofNat n, r)
    else .ok (.ofNat n, r)
  | bs => .error (.truncated, bs.length)

def next32 (big : Bool) : Bytes → Step CodePoint
  | a :: b :: c :: d :: r =>
    let n := if big then unit16 true a b * 65536 + unit16 true c d
      else unit16 false c d * 65536 + unit16 false a b
    if n < 0x110000 then .ok (.ofNat n, r) else .error (.range, 4)
  | bs => .error (.truncated, bs.length)

def decodeAll {α : Type} (codec : Codec) (next : Bytes → Step α) : Nat → Nat → Bytes →
    Except Problem (List α)
  | _, _, [] => .ok []
  | 0, _, _ => .ok []
  | n + 1, position, bs =>
    match next bs with
    | .error (reason, count) => .error ⟨codec, position, bs.take count, reason⟩
    | .ok (a, r) =>
      match decodeAll codec next n (position + (bs.length - r.length)) r with
      | .ok as => .ok (a :: as)
      | .error p => .error p

def decodeUtf8 (bs : Bytes) : Except Problem (List Char) :=
  decodeAll .utf8 nextChar bs.length 0 bs

def Codec.next : Codec → Bytes → Step CodePoint
  | .utf8 => nextCodePoint
  | .utf16le => next16 false
  | .utf16be => next16 true
  | .utf32le => next32 false
  | .utf32be => next32 true

/-- The code points that bytes write; surrogates may stand alone. `skip` bytes stand before them. -/
def decode (codec : Codec) (skip : Nat) (bs : Bytes) : Except Problem Text :=
  decodeAll codec codec.next bs.length skip bs

/-- The marks of byte order, each with its codec and the position of the first byte after it. A mark
of UTF-8 does not count. -/
def marks : List (Bytes × Codec × Nat) :=
  [([0x00, 0x00, 0xFE, 0xFF], .utf32be, 4), ([0xFF, 0xFE, 0x00, 0x00], .utf32le, 4),
    ([0xFE, 0xFF], .utf16be, 2), ([0xFF, 0xFE], .utf16le, 2), ([0xEF, 0xBB, 0xBF], .utf8, 0)]

def zeroCodec : Bytes → Codec
  | a :: b :: c :: d :: _ =>
    if a = 0 then if b = 0 then .utf32be else .utf16be
    else if b = 0 then if c = 0 && d = 0 then .utf32le else .utf16le
    else .utf8
  | [a, b] => if a = 0 then .utf16be else if b = 0 then .utf16le else .utf8
  | _ => .utf8

/-- The codec that the first bytes tell, the position of the first byte after a mark of it, and the
bytes after the mark. -/
def detect (bs : Bytes) : Codec × Nat × Bytes :=
  match marks.find? fun m => m.1.isPrefixOf bs with
  | some (mark, codec, position) => (codec, position, bs.drop mark.length)
  | none => (zeroCodec bs, 0, bs)

def decodeDetected (bs : Bytes) : Except Problem Text :=
  let (codec, skip, rest) := detect bs
  decode codec skip rest

/-- The bytes of a code point in UTF-8; a surrogate that stands for an undecodable byte gives that
byte. -/
def encodeCodePoint : CodePoint → Bytes
  | .char c => String.utf8EncodeChar c
  | .surrogate s =>
    let n := s.offset.val
    if 0x480 ≤ n ∧ n < 0x500 then [UInt8.ofNat (n - 0x400)]
    else [0xED, UInt8.ofNat (0xA0 + n / 64), UInt8.ofNat (0x80 + n % 64)]

def encode (t : Text) : Bytes := t.flatMap encodeCodePoint

/-- Whether a code point has bytes of its own in a path: a character, or a surrogate that stands for
an undecodable byte. -/
def encodable : CodePoint → Bool
  | .char _ => true
  | .surrogate s => 0x480 ≤ s.offset.val && s.offset.val < 0x500

end Encoding

end Terraload
