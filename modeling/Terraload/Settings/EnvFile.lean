import Terraload.Encoding
import Terraload.Text.Blank
import Terraload.Value
/-!
Files of environment bindings, `NAME=value` on a line each. A line that is no binding is skipped.
Values may refer to earlier bindings and to the environment.
-/
namespace Terraload.EnvFile

structure Binding where
  key : List Char
  value : Option (List Char)

def inline (c : Char) : Bool := blankChar c && c != '\n' && c != '\r'

def unifyLineEnds : List Char → List Char
  | '\r' :: '\n' :: r => '\n' :: unifyLineEnds r
  | '\r' :: r => '\n' :: unifyLineEnds r
  | c :: r => c :: unifyLineEnds r
  | [] => []

def keyChar (c : Char) : Bool := c != '=' && c != '#' && !blankChar c

def skipExport (s : List Char) : List Char :=
  match s with
  | 'e' :: 'x' :: 'p' :: 'o' :: 'r' :: 't' :: c :: r =>
    if inline c then r.dropWhile inline else s
  | _ => s

/-- A key, in single quotes or plain; a comment has none. A failure gives the place it stopped at. -/
def key (s : List Char) : Except (List Char) (Option (List Char) × List Char) :=
  match s with
  | '#' :: _ => .ok (none, s)
  | '\x27' :: r =>
    match r.takeWhile (· != '\x27'), r.dropWhile (· != '\x27') with
    | k, _ :: rest => if k.isEmpty then .error s else .ok (some k, rest)
    | _, [] => .error s
  | _ =>
    let k := s.takeWhile keyChar
    if k.isEmpty then .error s else .ok (some k, s.dropWhile keyChar)

/-- The inside of a quoted value up to its closing quote. The quote itself may be escaped; where no
other quote follows, the escaped one ends the value. -/
def quoted? (q : Char) : List Char → Option (List Char × List Char)
  | [] => none
  | '\\' :: c :: r =>
    if c = q then
      match quoted? q r with
      | some (w, r) => some ('\\' :: c :: w, r)
      | none => some (['\\'], r)
    else (quoted? q (c :: r)).map fun (w, r) => ('\\' :: w, r)
  | c :: r => if c = q then some ([], r) else (quoted? q r).map fun (w, r) => (c :: w, r)

def escape? : Char → Option Char
  | '\\' => some '\\'
  | '\x27' => some '\x27'
  | '"' => some '"'
  | 'a' => some '\x07'
  | 'b' => some '\x08'
  | 'f' => some '\x0c'
  | 'n' => some '\n'
  | 'r' => some '\r'
  | 't' => some '\t'
  | 'v' => some '\x0b'
  | _ => none

def singleEscape? : Char → Option Char
  | '\\' => some '\\'
  | '\x27' => some '\x27'
  | _ => none

def unescape (known : Char → Option Char) : List Char → List Char
  | '\\' :: c :: r =>
    match known c with
    | some d => d :: unescape known r
    | none => '\\' :: unescape known (c :: r)
  | c :: r => c :: unescape known r
  | [] => []

def beforeComment : List Char → List Char
  | [] => []
  | c :: r =>
    if blankChar c && (r.dropWhile blankChar).head? == some '#' then []
    else c :: beforeComment r

/-- A value after the equals sign, at the start of which there were blanks if `apart` holds. -/
def value (apart : Bool) (s : List Char) : Except (List Char) (List Char × List Char) :=
  match s with
  | '\x27' :: r =>
    match quoted? '\x27' r with
    | some (w, r) => .ok (unescape singleEscape? w, r)
    | none => .error s
  | '"' :: r =>
    match quoted? '"' r with
    | some (w, r) => .ok (unescape escape? w, r)
    | none => .error s
  | _ =>
    if apart && s.head? == some '#' then .ok ([], s)
    else
      let line := s.takeWhile (· != '\n')
      .ok (dropEndWhile blankChar (beforeComment line), s.dropWhile (· != '\n'))

def lineEnd (s : List Char) : Except (List Char) (List Char) :=
  let afterBlanks := s.dropWhile inline
  let s := match afterBlanks with
    | '#' :: _ => afterBlanks.dropWhile (· != '\n')
    | _ => s
  match s.dropWhile inline with
  | [] => .ok []
  | '\n' :: r => .ok r
  | _ => .error s

def binding (s : List Char) : Except (List Char) (Option Binding × List Char) := do
  let (k, s) ← key (skipExport s)
  match s.dropWhile inline with
  | '=' :: r =>
    let rest := r.dropWhile inline
    let (v, s) ← value (rest.length < r.length) rest
    let s ← lineEnd s
    return (k.map fun k => ⟨k, some v⟩, s)
  | s =>
    let s ← lineEnd s
    return (k.map fun k => ⟨k, none⟩, s)

/-- The bindings of a text; `n` exceeds the number of its lines. -/
def bindingsFrom : Nat → List Char → List Binding
  | 0, _ => []
  | n + 1, s =>
    match s.dropWhile blankChar with
    | [] => []
    | s =>
      match binding s with
      | .ok (some b, r) => b :: bindingsFrom n r
      | .ok (none, r) => bindingsFrom n r
      | .error r => bindingsFrom n ((r.dropWhile (· != '\n')).drop 1)

def bindings (s : List Char) : List Binding := bindingsFrom (s.length + 1) s

def reference? : List Char → Option (List Char × List Char × List Char)
  | '$' :: '{' :: r =>
    let stop (c : Char) := c == '}' || c == ':'
    let name := r.takeWhile fun c => !stop c
    match r.dropWhile fun c => !stop c with
    | '}' :: rest => some (name, [], rest)
    | ':' :: '-' :: rest =>
      match rest.dropWhile (· != '}') with
      | _ :: after => some (name, rest.takeWhile (· != '}'), after)
      | [] => none
    | _ => none
  | _ => none

def expand (lookup : Text → Option Text) : Nat → List Char → Text
  | 0, _ => []
  | _, [] => []
  | n + 1, c :: r =>
    match reference? (c :: r) with
    | some (name, default, rest) =>
      (lookup (Text.ofChars name)).getD (Text.ofChars default) ++ expand lookup n rest
    | none => .char c :: expand lookup n r

def resolve (environment : Members Text) :
    List Binding → Members (Option Text) → Members (Option Text)
  | [], known => known
  | b :: bs, known =>
    let lookup (name : Text) : Option Text :=
      match known.get? name with
      | some v => some (v.getD [])
      | none => environment.get? name
    let v := b.value.map fun w => expand lookup (w.length + 1) w
    resolve environment bs (known.put (Text.ofChars b.key) v)

def read (environment : Members Text) (bytes : Bytes) :
    Except Encoding.Problem (Members (Option Text)) := do
  let cs ← Encoding.decodeUtf8 bytes
  let cs := match cs with
    | '\uFEFF' :: r => r
    | r => r
  return resolve environment (bindings (unifyLineEnds cs)) []

end Terraload.EnvFile
