/-!
Texts as sequences of code points. A text may hold surrogates that stand alone, as an escape in a
document or an undecodable byte in a file name leaves them behind.
-/
namespace Terraload

/-- One of the 2048 code points that are no characters, by its distance from U+D800. -/
structure Surrogate where
  offset : Fin 2048
  deriving DecidableEq

inductive CodePoint
  | char (c : Char)
  | surrogate (s : Surrogate)
  deriving DecidableEq

namespace CodePoint

def val : CodePoint → Nat
  | .char c => c.toNat
  | .surrogate s => 0xD800 + s.offset.val

/-- The code point of a number; a number beyond U+10FFFF gives U+FFFD. -/
def ofNat (n : Nat) : CodePoint :=
  if n < 0xD800 then .char (Char.ofNat n)
  else if h : n - 0xD800 < 2048 then .surrogate ⟨⟨n - 0xD800, h⟩⟩
  else if n < 0x110000 then .char (Char.ofNat n)
  else .char '\uFFFD'

def toChar? : CodePoint → Option Char
  | .char c => some c
  | .surrogate _ => none

end CodePoint

abbrev Text := List CodePoint

namespace Text

def ofChars (cs : List Char) : Text := cs.map .char

def toChars? (t : Text) : Option (List Char) := t.mapM CodePoint.toChar?

def le : Text → Text → Bool
  | [], _ => true
  | _ :: _, [] => false
  | a :: s, b :: t => if a.val = b.val then le s t else decide (a.val < b.val)

/-- Everything before and after the first `c`; nothing after it when it does not occur. -/
def cut (c : CodePoint) : Text → Text × Option Text
  | [] => ([], none)
  | a :: t => if a = c then ([], some t) else let (l, r) := cut c t; (a :: l, r)

def splitOn (c : CodePoint) : Text → List Text
  | [] => [[]]
  | a :: t =>
    if a = c then [] :: splitOn c t
    else match splitOn c t with
      | [] => [[a]]
      | p :: ps => (a :: p) :: ps

def join (sep : Text) : List Text → Text
  | [] => []
  | [p] => p
  | p :: ps => p ++ sep ++ join sep ps

def eraseFirst (t part : Text) : Text :=
  if part.isPrefixOf t then t.drop part.length
  else match t with
    | [] => []
    | a :: t => a :: eraseFirst t part

def padRight (width : Nat) (t : Text) : Text :=
  t ++ List.replicate (width - t.length) (.char ' ')

end Text

def text (s : String) : Text := Text.ofChars s.toList

end Terraload
