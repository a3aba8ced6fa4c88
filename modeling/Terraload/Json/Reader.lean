import Terraload.Value
/-!
Reading JSON texts. Besides the numbers of the format, `NaN`, `Infinity` and `-Infinity` are read. A
failure tells its place by the number of code points that were left.
-/
namespace Terraload.Json

inductive Fault
  | expectedValue
  | expectedName
  | expectedColon
  | expectedComma
  | extraData
  | unterminatedString
  | controlCharacter
  | badEscape
  | badUnicodeEscape
  deriving DecidableEq

def Fault.message : Fault → String
  | .expectedValue => "Expecting value"
  | .expectedName => "Expecting property name enclosed in double quotes"
  | .expectedColon => "Expecting \x27:\x27 delimiter"
  | .expectedComma => "Expecting \x27,\x27 delimiter"
  | .extraData => "Extra data"
  | .unterminatedString => "Unterminated string starting at"
  | .controlCharacter => "Invalid control character at"
  | .badEscape => "Invalid \\escape"
  | .badUnicodeEscape => "Invalid \\uXXXX escape"

inductive Failure
  /-- A fault where `left` code points are left. -/
  | malformed (f : Fault) (left : Nat)
  | tooManyDigits (count : Nat)
  | tooDeep

abbrev Read (α : Type) := Except Failure (α × Text)

structure Rules where
  depth : Nat
  loneSurrogates : Bool

def Rules.lenient : Rules := ⟨990, true⟩

def Rules.strict : Rules := ⟨200, false⟩

def digitLimit : Nat := 4300

def fail {α : Type} (f : Fault) (at_ : Text) : Except Failure α := .error (.malformed f at_.length)

def blank (c : CodePoint) : Bool :=
  c = .char ' ' || c = .char '\t' || c = .char '\n' || c = .char '\r'

def skipBlanks (s : Text) : Text := s.dropWhile blank

def digit? : CodePoint → Option Char
  | .char c => if decimalDigit c then some c else none
  | .surrogate _ => none

def digits : Text → List Char × Text
  | [] => ([], [])
  | c :: s =>
    match digit? c with
    | some d => let (ds, r) := digits s; (d :: ds, r)
    | none => ([], c :: s)

def dropWord? : List Char → Text → Option Text
  | [], s => some s
  | c :: w, .char d :: s => if c = d then dropWord? w s else none
  | _ :: _, _ => none

def fraction (s : Text) : List Char × Text :=
  match s with
  | .char '.' :: r =>
    match digits r with
    | ([], _) => ([], s)
    | (ds, r) => ('.' :: ds, r)
  | _ => ([], s)

def sign (s : Text) : List Char × Text :=
  match s with
  | .char '-' :: r => (['-'], r)
  | _ => ([], s)

def anySign (s : Text) : List Char × Text :=
  match s with
  | .char '+' :: r => (['+'], r)
  | _ => sign s

def exponent (s : Text) : List Char × Text :=
  match s with
  | .char c :: r =>
    if c = 'e' ∨ c = 'E' then
      let (sg, r) := anySign r
      match digits r with
      | ([], _) => ([], s)
      | (ds, r) => (c :: (sg ++ ds), r)
    else ([], s)
  | _ => ([], s)

def whole (s : Text) : List Char × Text :=
  match s with
  | .char '0' :: r => (['0'], r)
  | _ => digits s

def numberValue? (sign whole fraction exponent : List Char) : Option (Except Failure Value) :=
  if fraction.isEmpty && exponent.isEmpty then
    let n := natOfDigits whole
    if digitLimit < whole.length then some (.error (.tooManyDigits whole.length))
    else some (.ok (.integer (if sign.isEmpty then (n : Int) else -n)))
  else
    (Binary64.read? (sign ++ whole ++ fraction ++ exponent)).map fun x => .ok (.real x)

def number? (s : Text) : Option (Except Failure Value × Text) :=
  let (sg, r) := sign s
  let (ds, r) := whole r
  if ds.isEmpty then none
  else
    let (f, r) := fraction r
    let (e, r) := exponent r
    (numberValue? sg ds f e).map (·, r)

def hex4? : Text → Option (Nat × Text)
  | .char a :: .char b :: .char c :: .char d :: r => (hexNat? [a, b, c, d]).map (·, r)
  | _ => none

def unit? (s : Text) : Option (Nat × Text) :=
  match hex4? s with
  | some (n, c :: r) => some (n, c :: r)
  | _ => none

def shortEscape? : CodePoint → Option Char
  | .char '"' => some '"'
  | .char '\\' => some '\\'
  | .char '/' => some '/'
  | .char 'b' => some '\x08'
  | .char 'f' => some '\x0c'
  | .char 'n' => some '\n'
  | .char 'r' => some '\r'
  | .char 't' => some '\t'
  | _ => none

def pair? (u : Nat) (s : Text) : Option (Nat × Text) :=
  match s with
  | .char '\\' :: .char 'u' :: r =>
    match unit? r with
    | some (v, r) =>
      if 0xD800 ≤ u ∧ u < 0xDC00 ∧ 0xDC00 ≤ v ∧ v < 0xE000 then
        some (0x10000 + (u - 0xD800) * 0x400 + (v - 0xDC00), r)
      else none
    | none => none
  | _ => none

def escaped (lone : Bool) (start : Text) (s : Text) : Read CodePoint :=
  match s with
  | [] => .error (.malformed .unterminatedString (start.length + 1))
  | .char 'u' :: r =>
    match unit? r with
    | none => fail .badUnicodeEscape s
    | some (u, r) =>
      match pair? u r with
      | some (v, r) => .ok (.ofNat v, r)
      | none =>
        if !lone && 0xD800 ≤ u && u < 0xE000 then fail .badUnicodeEscape s
        else .ok (.ofNat u, r)
  | c :: r =>
    match shortEscape? c with
    | some d => .ok (.char d, r)
    | none => .error (.malformed .badEscape (s.length + 1))

/-- The inside of a string up to its closing quote; `start` is what followed the opening one. -/
def string (lone : Bool) (start : Text) : Nat → Text → Read Text
  | 0, _ => .error (.malformed .unterminatedString (start.length + 1))
  | n + 1, s =>
    match s with
    | [] => .error (.malformed .unterminatedString (start.length + 1))
    | .char '"' :: r => .ok ([], r)
    | .char '\\' :: r =>
      match escaped lone start r with
      | .error e => .error e
      | .ok (c, r) =>
        match string lone start n r with
        | .ok (t, r) => .ok (c :: t, r)
        | .error e => .error e
    | c :: r =>
      if c.val < 32 then fail .controlCharacter s
      else
        match string lone start n r with
        | .ok (t, r) => .ok (c :: t, r)
        | .error e => .error e

def words : List (String × Value) :=
  [("null", .null), ("true", .boolean true), ("false", .boolean false), ("NaN", .real .nan),
    ("Infinity", .real (.infinite false)), ("-Infinity", .real (.infinite true))]

def wordValue? (s : Text) : Option (Value × Text) :=
  words.findSome? fun (w, v) => (dropWord? w.toList s).map (v, ·)

mutual

/-- A value, with `depth` levels of nesting left. -/
def value (lone : Bool) : Nat → Nat → Text → Read Value
  | 0, _, _ => .error .tooDeep
  | n + 1, depth, s =>
    match s with
    | .char '"' :: r =>
      match string lone r n r with
      | .ok (t, r) => .ok (.text t, r)
      | .error e => .error e
    | .char '{' :: r =>
      match depth with
      | 0 => .error .tooDeep
      | depth + 1 =>
        match skipBlanks r with
        | .char '}' :: r => .ok (.object [], r)
        | r =>
          match members lone n depth [] r with
          | .ok (ms, r) => .ok (.object ms, r)
          | .error e => .error e
    | .char '[' :: r =>
      match depth with
      | 0 => .error .tooDeep
      | depth + 1 =>
        match skipBlanks r with
        | .char ']' :: r => .ok (.list [], r)
        | r =>
          match items lone n depth r with
          | .ok (vs, r) => .ok (.list vs, r)
          | .error e => .error e
    | _ =>
      match wordValue? s with
      | some (v, r) => .ok (v, r)
      | none =>
        match number? s with
        | some (.ok v, r) => .ok (v, r)
        | some (.error e, _) => .error e
        | none => fail .expectedValue s

def items (lone : Bool) : Nat → Nat → Text → Read (List Value)
  | 0, _, _ => .error .tooDeep
  | n + 1, depth, s =>
    match value lone n depth s with
    | .error e => .error e
    | .ok (v, r) =>
      match skipBlanks r with
      | .char ']' :: r => .ok ([v], r)
      | .char ',' :: r =>
        match items lone n depth (skipBlanks r) with
        | .ok (vs, r) => .ok (v :: vs, r)
        | .error e => .error e
      | r => fail .expectedComma r

/-- The members of an object up to its closing brace, added to the ones before; there is at least
one. A later member of a name replaces the value of an earlier one. -/
def members (lone : Bool) : Nat → Nat → Members Value → Text → Read (Members Value)
  | 0, _, _, _ => .error .tooDeep
  | n + 1, depth, ms, s =>
    match s with
    | .char '"' :: r =>
      match string lone r n r with
      | .error e => .error e
      | .ok (k, r) =>
        match skipBlanks r with
        | .char ':' :: r =>
          match value lone n depth (skipBlanks r) with
          | .error e => .error e
          | .ok (v, r) =>
            match skipBlanks r with
            | .char '}' :: r => .ok (ms.put k v, r)
            | .char ',' :: r => members lone n depth (ms.put k v) (skipBlanks r)
            | r => fail .expectedComma r
        | r => fail .expectedColon r
    | _ => fail .expectedName s

end

def read (rules : Rules) (s : Text) : Except Failure Value :=
  match value rules.loneSurrogates (2 * s.length + 2) rules.depth (skipBlanks s) with
  | .error e => .error e
  | .ok (v, r) =>
    match skipBlanks r with
    | [] => .ok v
    | r => fail .extraData r

def place (s : Text) (index : Nat) : Nat × Nat :=
  let before := s.take index
  (before.count (.char '\n') + 1, (before.reverse.takeWhile (· != .char '\n')).length + 1)

def Fault.render (f : Fault) (s : Text) (left : Nat) : List Char :=
  let index := s.length - left
  let (line, column) := place s index
  f.message.toList ++ ": line ".toList ++ natDigits line ++ " column ".toList ++ natDigits column
    ++ " (char ".toList ++ natDigits index ++ [')']

end Terraload.Json
