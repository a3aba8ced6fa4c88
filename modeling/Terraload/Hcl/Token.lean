import Terraload.Hcl.Expression
import Terraload.Text.Blank
import Terraload.Number.Digits
/-!
The words of configuration text. Each reader takes the characters that are left and gives the word
and what follows it.
-/
namespace Terraload.Hcl

def blank (c : Char) : Bool := c == ' ' || c == '\t' || c == '\r'

def skipBlanks (s : List Char) : List Char := s.dropWhile blank

def nameStart (c : Char) : Bool :=
  ('a' ≤ c && c ≤ 'z') || ('A' ≤ c && c ≤ 'Z') || c == '_'

def nameChar (c : Char) : Bool := nameStart c || decimalDigit c || c == '-'

def name? : List Char → Option (Name × List Char)
  | [] => none
  | c :: r => if nameStart c then some (c :: r.takeWhile nameChar, r.dropWhile nameChar) else none

def dropWord? : List Char → List Char → Option (List Char)
  | [], s => some s
  | c :: w, d :: s => if c = d then dropWord? w s else none
  | _ :: _, [] => none

/-- Digits, and before two or more of them also a minus sign. -/
def integer? (s : List Char) : Option (List Char × List Char) :=
  match s with
  | '-' :: r =>
    let ds := r.takeWhile decimalDigit
    if 2 ≤ ds.length then some ('-' :: ds, r.dropWhile decimalDigit) else none
  | _ =>
    let ds := s.takeWhile decimalDigit
    if ds.isEmpty then none else some (ds, s.dropWhile decimalDigit)

def signedDigits : List Char → List Char × List Char
  | '-' :: d :: r =>
    if decimalDigit d then let (ds, r) := signedDigits r; ('-' :: d :: ds, r)
    else ([], '-' :: d :: r)
  | s => ([], s)

def exponent? : List Char → Option (List Char × List Char)
  | [] => none
  | c :: r =>
    if c == 'e' || c == 'E' then
      let (sign, r) := match r with
        | '+' :: r => (['+'], r)
        | '-' :: r => (['-'], r)
        | r => ([], r)
      let ds := r.takeWhile decimalDigit
      if ds.isEmpty then none else some (c :: (sign ++ ds), r.dropWhile decimalDigit)
    else none

def fraction? : List Char → Option (List Char × List Char)
  | '.' :: r =>
    let ds := r.takeWhile decimalDigit
    let r := r.dropWhile decimalDigit
    if ds.isEmpty then none
    else match exponent? r with
      | some (e, r) => some ('.' :: (ds ++ e), r)
      | none => some ('.' :: ds, r)
  | _ => none

def wholes (s : List Char) : List (List Char × List Char) :=
  let signed := signedDigits s
  (integer? s).toList ++ (if signed.1.isEmpty then [] else [signed])

def real? (s : List Char) : Option (List Char × List Char) :=
  let after (tail? : List Char → Option (List Char × List Char)) :=
    (wholes s).findSome? fun (w, r) => (tail? r).map fun (t, r) => (w ++ t, r)
  match after fraction? with
  | some x => some x
  | none => after exponent?

def numeral? (s : List Char) : Option (Numeral × List Char) :=
  match real? s with
  | some (w, r) => some (.real w, r)
  | none => (integer? s).map fun (w, r) => (.integer w, r)

def line? (s : List Char) : Option (List Char × List Char) :=
  match s.dropWhile (· != '\n') with
  | [] => none
  | c :: r => some (s.takeWhile (· != '\n') ++ [c], r)

def commentEnd? : List Char → Option (List Char × List Char)
  | '*' :: '/' :: r => some (['*', '/'], r)
  | c :: r => (commentEnd? r).map fun (w, r) => (c :: w, r)
  | [] => none

def gap? : List Char → Option (Gap × List Char)
  | '\n' :: r =>
    let inner (c : Char) := c == ' ' || c == '\t'
    some ('\n' :: r.takeWhile inner, r.dropWhile inner)
  | '#' :: r => (line? r).map fun (w, r) => ('#' :: w, r)
  | '/' :: '/' :: r => (line? r).map fun (w, r) => ('/' :: '/' :: w, r)
  | '/' :: '*' :: r => (commentEnd? r).map fun (w, r) => ('/' :: '*' :: w, r)
  | _ => none

def equalsSign? (s : List Char) : Option (List Char) :=
  match s with
  | '=' :: r => match r with
    | '=' :: _ => none
    | '>' :: _ => none
    | _ => some r
  | _ => none

def colon? (s : List Char) : Option (List Char) :=
  match s with
  | ':' :: r => match r with
    | ':' :: _ => none
    | _ => some r
  | _ => none

/-- The literal characters of a string up to its end, an interpolation or a directive. A backslash
stands with the character after it. -/
def stringChars : List Char → List Char × List Char
  | '"' :: r => ([], '"' :: r)
  | '$' :: '{' :: r => ([], '$' :: '{' :: r)
  | '%' :: '{' :: r => ([], '%' :: '{' :: r)
  | '$' :: '$' :: '{' :: r => ([], '$' :: '$' :: '{' :: r)
  | '%' :: '%' :: '{' :: r => ([], '%' :: '%' :: '{' :: r)
  | '\\' :: '\n' :: r => ([], '\\' :: '\n' :: r)
  | '\\' :: c :: r => let (w, r) := stringChars r; ('\\' :: c :: w, r)
  | ['\\'] => ([], ['\\'])
  | c :: r => let (w, r) := stringChars r; (c :: w, r)
  | [] => ([], [])

def braced? : List Char → Option (List Char × List Char)
  | '}' :: r => some (['}'], r)
  | c :: r => (braced? r).map fun (w, r) => (c :: w, r)
  | [] => none

def escapedTail? : List Char → Option (List Char × List Char)
  | '\\' :: '"' :: r => some (['\\', '"'], r)
  | '\\' :: '\\' :: '\n' :: _ => none
  | '\\' :: '\\' :: c :: r => (escapedTail? r).map fun (w, r) => ('\\' :: '\\' :: c :: w, r)
  | '\\' :: _ => none
  | '"' :: _ => none
  | c :: r => (escapedTail? r).map fun (w, r) => (c :: w, r)
  | [] => none

def escapedString? : List Char → Option (List Char × List Char)
  | '\\' :: '"' :: r => (escapedTail? r).map fun (w, r) => ('\\' :: '"' :: w, r)
  | _ => none

def lineEnd? : List Char → Option (List Char × List Char)
  | '\n' :: r => some (['\n'], r)
  | '\r' :: '\n' :: r => some (['\r', '\n'], r)
  | _ => none

/-- The lines of a heredoc from the start of a line: the first one that holds only blank space and
the mark is the last. -/
def heredocLines? (mark : List Char) : Nat → List Char → Option (List Char × List Char)
  | 0, _ => none
  | n + 1, s =>
    let blanks := s.takeWhile blankChar
    match (dropWord? mark (s.dropWhile blankChar)).bind lineEnd? with
    | some (e, r) => some (blanks ++ mark ++ e, r)
    | none =>
      match line? s with
      | none => none
      | some (l, r) => (heredocLines? mark n r).map fun (w, r) => (l ++ w, r)

def heredocStart (c : Char) : Bool := ('a' ≤ c && c ≤ 'z') || ('A' ≤ c && c ≤ 'Z')

def heredocChar (c : Char) : Bool :=
  heredocStart c || decimalDigit c || c == '.' || c == '_' || c == '-'

def heredoc? (s : List Char) : Option (List Char × List Char) := do
  let (opening, r) ← match s with
    | '<' :: '<' :: '-' :: r => some (['<', '<', '-'], r)
    | '<' :: '<' :: r => some (['<', '<'], r)
    | _ => none
  guard ((r.head?.map heredocStart).getD false)
  let mark := r.takeWhile heredocChar
  let (e, r) ← lineEnd? (r.dropWhile heredocChar)
  let (lines, r) ← heredocLines? mark (r.length + 1) r
  some (opening ++ mark ++ e ++ lines, r)

/-- A binary operator. A minus sign that starts a number is none, nor is what opens a comment or a
heredoc. -/
def operator? (s : List Char) : Option (BinaryOp × List Char) :=
  match s with
  | '|' :: '|' :: r => some (.or, r)
  | '&' :: '&' :: r => some (.and, r)
  | '=' :: '=' :: r => some (.equal, r)
  | '!' :: '=' :: r => some (.unequal, r)
  | '<' :: '=' :: r => some (.atMost, r)
  | '>' :: '=' :: r => some (.atLeast, r)
  | '<' :: r => if (heredoc? s).isSome then none else some (.less, r)
  | '>' :: r => some (.greater, r)
  | '+' :: r => some (.plus, r)
  | '-' :: r => if (numeral? s).isSome then none else some (.minus, r)
  | '*' :: r => some (.times, r)
  | '/' :: '/' :: _ => none
  | '/' :: '*' :: _ => none
  | '/' :: r => some (.divide, r)
  | '%' :: r => some (.modulo, r)
  | _ => none

/-- Whether an operator other than a minus sign, or a question mark, comes next. Such a word takes
the newline or comment before it to itself. -/
def joins (s : List Char) : Bool :=
  match s with
  | '?' :: _ => true
  | '-' :: _ => false
  | _ => (operator? s).isSome

/-- As many newlines and comments as there are. A last one is left to an operator that joins it. -/
def gapRun : Nat → List Char → List Gap × List Char
  | 0, s => ([], s)
  | n + 1, s =>
    match gap? (skipBlanks s) with
    | none => ([], s)
    | some (g, r) =>
      if joins (skipBlanks r) then ([], s)
      else let (gs, r) := gapRun n r; (g :: gs, r)

end Terraload.Hcl
