import Terraload.Text
/-!
Blank space of Unicode, with the four information separators, and its removal at the ends of a text.
-/
namespace Terraload

def spaceCode (n : Nat) : Bool :=
  (9 ≤ n && n ≤ 13) || n == 32 || n == 0x85 || n == 0xA0 || n == 0x1680
    || (0x2000 ≤ n && n ≤ 0x200A) || n == 0x2028 || n == 0x2029 || n == 0x202F || n == 0x205F
    || n == 0x3000

def blankCode (n : Nat) : Bool := spaceCode n || (28 ≤ n && n ≤ 31)

def blankChar (c : Char) : Bool := blankCode c.toNat

def dropEndWhile {α : Type} (p : α → Bool) (l : List α) : List α := (l.reverse.dropWhile p).reverse

def trimWhile {α : Type} (p : α → Bool) (l : List α) : List α := dropEndWhile p (l.dropWhile p)

def stripChars (cs : List Char) : List Char := trimWhile blankChar cs

end Terraload
