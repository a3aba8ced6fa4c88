import Terraload.Hcl.Reader
import Terraload.Hcl.Comment
import Terraload.Value.Literal
/-!
The document of a configuration text. Plain literals, lists and objects become values. Every other
expression is kept as the text of an interpolation, written in one fixed layout.
-/
namespace Terraload.Hcl

inductive NumeralFault
  /-- An integer has more digits than are read. -/
  | tooManyDigits (count : Nat)
  /-- A number mixes its signs. -/
  | notANumber (digits : List Char)

inductive Fault
  /-- A block has the name of an attribute of its body. -/
  | redefined (name : Name)
  | numeral (f : NumeralFault)

def digitLimit : Nat := 4300

def chars (s : String) : List Char := s.toList

def interpolated (source : List Char) : List Char := '$' :: '{' :: (source ++ ['}'])

def joinChars (sep : List Char) (ws : List (List Char)) : List Char := (ws.intersperse sep).flatten

/-- Whether a number is written with an exponent. Such a number is kept as it is written. -/
def exponential (digits : List Char) : Bool := digits.contains 'e' || digits.contains 'E'

def readInteger (digits : List Char) : Except NumeralFault Int :=
  let count := (digits.filter decimalDigit).length
  if digitLimit < count then .error (.tooManyDigits count) else .ok (intOfDigits digits)

def readReal (digits : List Char) : Except NumeralFault Binary64 :=
  match Binary64.read? digits with
  | some x => .ok x
  | none => .error (.notANumber digits)

/-- A number, with its sign turned if `negative` holds. -/
def Numeral.value (negative : Bool) : Numeral → Except NumeralFault Value
  | .integer ds => do
    let n ← readInteger ds
    return .integer (if negative then -n else n)
  | .real ds => do
    let x ← readReal ds
    if exponential ds then
      return .text (Text.ofChars (interpolated (if negative then '-' :: ds else ds)))
    else return .real (if negative then x.neg else x)

def Numeral.source (negative : Bool) : Numeral → Except NumeralFault (List Char)
  | .integer ds => do
    let n ← readInteger ds
    return intDigits (if negative then -n else n)
  | .real ds => do
    let x ← readReal ds
    if exponential ds then return if negative then '-' :: ds else ds
    else return (if negative then x.neg else x).render

def Constant.value : Constant → Value
  | .true => .boolean Bool.true
  | .false => .boolean Bool.false
  | .null => .null

def Constant.source : Constant → List Char
  | .true => chars "true"
  | .false => chars "false"
  | .null => chars "null"

def UnaryOp.symbol : UnaryOp → Char
  | .negate => '-'
  | .complement => '!'

def BinaryOp.symbol : BinaryOp → List Char
  | .or => ['|', '|']
  | .and => ['&', '&']
  | .equal => ['=', '=']
  | .unequal => ['!', '=']
  | .less => ['<']
  | .greater => ['>']
  | .atMost => ['<', '=']
  | .atLeast => ['>', '=']
  | .plus => ['+']
  | .minus => ['-']
  | .times => ['*']
  | .divide => ['/']
  | .modulo => ['%']

def scalar? (n : Nat) : Option Char := if n.isValidChar then some (Char.ofNat n) else none

def unescape : List Char → List Char
  | '\\' :: 'n' :: r => '\n' :: unescape r
  | '\\' :: 'r' :: r => '\r' :: unescape r
  | '\\' :: 't' :: r => '\t' :: unescape r
  | '\\' :: '"' :: r => '"' :: unescape r
  | '\\' :: '\\' :: r => '\\' :: unescape r
  | '\\' :: 'u' :: a :: b :: c :: d :: r =>
    match (hexNat? [a, b, c, d]).bind scalar? with
    | some x => x :: unescape r
    | none => '\\' :: 'u' :: unescape (a :: b :: c :: d :: r)
  | '\\' :: 'U' :: a :: b :: c :: d :: e :: f :: g :: h :: r =>
    match (hexNat? [a, b, c, d, e, f, g, h]).bind scalar? with
    | some x => x :: unescape r
    | none => '\\' :: 'U' :: unescape (a :: b :: c :: d :: e :: f :: g :: h :: r)
  | c :: r => c :: unescape r
  | [] => []

def directiveText (s : Strip) (inner : List Char) : List Char :=
  (if s.left then chars "%\x7b~ " else chars "%\x7b ") ++ inner
    ++ (if s.right then chars " ~\x7d" else chars " \x7d")

def unwrapped (t : Text) : Text :=
  if (text "$\x7b").isPrefixOf t && (text "\x7d").isSuffixOf t then (t.drop 2).dropLast else t

mutual

def Expr.source : Expr → Except NumeralFault (List Char)
  | .numeral n => n.source false
  | .constant c => .ok c.source
  | .name n => .ok n
  | .template ps => do return '"' :: ((← sourcePieces ps) ++ ['"'])
  | .escaped raw => .ok raw
  | .heredoc raw => .ok (dropEndWhile blankChar raw)
  | .tuple es => do return '[' :: (joinChars [',', ' '] (← sources es) ++ [']'])
  | .object is => do return '{' :: (joinChars [',', ' '] (← itemSources is) ++ ['}'])
  | .call path args spread => do
    let args := joinChars [',', ' '] (← sources args)
    return joinChars [':', ':'] path ++ '(' :: (args ++ (if spread then chars " ...)" else [')']))
  | .group e => do return '(' :: ((← e.source) ++ [')'])
  | .access b ss => do return (← b.source) ++ (← stepSources ss)
  | .unary .negate (.numeral n) => n.source true
  | .unary op e => do return op.symbol :: (← e.source)
  | .binary g op l r => do
    let l ← l.source
    let r ← r.source
    return l ++ ' ' :: (stripChars (g ++ op.symbol) ++ ' ' :: r)
  | .conditional c a b => do
    let c ← c.source
    let a ← a.source
    let b ← b.source
    return c ++ chars " ? " ++ a ++ chars " : " ++ b
  | .forTuple ns s v cond => do
    let s ← s.source
    let v ← v.source
    let c ← conditionSource cond
    return chars "[for " ++ joinChars [',', ' '] ns ++ chars " in " ++ s ++ chars " : " ++ v ++ c
      ++ [']']
  | .forObject ns s k v grouping cond => do
    let s ← s.source
    let k ← k.source
    let v ← v.source
    let c ← conditionSource cond
    return chars "\x7bfor " ++ joinChars [',', ' '] ns ++ chars " in " ++ s ++ chars " : " ++ k
      ++ chars " => " ++ v ++ (if grouping then chars "..." else []) ++ c ++ ['}']

def sources : List Expr → Except NumeralFault (List (List Char))
  | [] => .ok []
  | e :: es => do
    let s ← e.source
    return s :: (← sources es)

def conditionSource : List Expr → Except NumeralFault (List Char)
  | [] => .ok []
  | e :: _ => do return chars " if " ++ (← e.source)

def itemSources : List Item → Except NumeralFault (List (List Char))
  | [] => .ok []
  | .keyword k v :: is => do
    let v ← v.source
    return (k ++ chars " = " ++ v) :: (← itemSources is)
  | .computed k v :: is => do
    let k ← k.source
    let v ← v.source
    return (k ++ chars " = " ++ v) :: (← itemSources is)

def stepSources : List Step → Except NumeralFault (List Char)
  | [] => .ok []
  | .attribute n :: ss => do return '.' :: (n ++ (← stepSources ss))
  | .position ds :: ss => do
    let n ← readInteger ds
    return '.' :: (intDigits n ++ (← stepSources ss))
  | .index e :: ss => do
    let i ← e.source
    return '[' :: (i ++ ']' :: (← stepSources ss))
  | .attributeSplat :: ss => do return '.' :: '*' :: (← stepSources ss)
  | .fullSplat :: ss => do return '[' :: '*' :: ']' :: (← stepSources ss)

def sourcePieces : List Piece → Except NumeralFault (List Char)
  | [] => .ok []
  | .chars cs :: ps => do return cs ++ (← sourcePieces ps)
  | p :: ps => do
    let s ← markSource p
    return s ++ (← sourcePieces ps)

def markSource : Piece → Except NumeralFault (List Char)
  | .chars cs => .ok cs
  | .verbatim cs => .ok cs
  | .interpolation e => do return interpolated (← e.source)
  | .ifStart s e => do return directiveText s (chars "if " ++ (← e.source))
  | .elseMark s => .ok (directiveText s (chars "else"))
  | .ifEnd s => .ok (directiveText s (chars "endif"))
  | .forStart s ns e => do
    return directiveText s (chars "for " ++ joinChars [',', ' '] ns ++ chars " in " ++ (← e.source))
  | .forEnd s => .ok (directiveText s (chars "endfor"))

end

def templateText : List Piece → Except NumeralFault (List Char)
  | [] => .ok []
  | .chars cs :: ps => do return unescape cs ++ (← templateText ps)
  | p :: ps => do
    let s ← markSource p
    return s ++ (← templateText ps)

/-- The key of a member: the word itself for a name, a string or a number, and an interpolation for
any other expression. -/
def Expr.key : Expr → Except NumeralFault (List Char)
  | .name n => .ok n
  | .constant c => .ok c.source
  | .template ps => templateText ps
  | .numeral n => do
    match ← n.value false with
    | .text _ => return interpolated (← n.source false)
    | _ => n.source false
  | e => do return interpolated (← e.source)

mutual

def Expr.value : Expr → Except NumeralFault Value
  | .numeral n => n.value false
  | .constant c => .ok c.value
  | .name n => .ok (.text (Text.ofChars n))
  | .template ps => do return .text (Text.ofChars (← templateText ps))
  | .escaped raw => .ok (.text (Text.ofChars raw))
  | .heredoc raw => .ok (.text (Text.ofChars (dropEndWhile blankChar raw)))
  | .tuple es => do return .list (← values es)
  | .object is => do return .object (← itemValues is [])
  | .unary .negate (.numeral n) => n.value true
  | .group e => do
    let t := unwrapped (← e.value).display
    return .text (text "$\x7b(" ++ t ++ text ")\x7d")
  | e => do return .text (Text.ofChars (interpolated (← e.source)))

def values : List Expr → Except NumeralFault (List Value)
  | [] => .ok []
  | e :: es => do
    let v ← e.value
    return v :: (← values es)

def itemValues : List Item → Members Value → Except NumeralFault (Members Value)
  | [], ms => .ok ms
  | .keyword k v :: is, ms => do
    let v ← v.value
    itemValues is (ms.put (Text.ofChars k) v)
  | .computed k v :: is, ms => do
    let k ← k.key
    let v ← v.value
    itemValues is (ms.put (Text.ofChars k) v)

end

structure Draft where
  members : Members Value
  attributes : List Name
  comments : List (List Char)
  inner : List (List Char)

def commentList (cs : List (List Char)) : Value :=
  .list (cs.map fun c => .object [(text "value", .text (Text.ofChars c))])

def Draft.finish (d : Draft) : Members Value :=
  let ms := if d.comments.isEmpty then d.members
    else d.members.put (text "__comments__") (commentList d.comments)
  if d.inner.isEmpty then ms else ms.put (text "__inline_comments__") (commentList d.inner)

def Label.key : Label → Except NumeralFault (List Char)
  | .name n => .ok n
  | .template ps => templateText ps
  | .gap g => .ok g

def Draft.addBlock (d : Draft) (kind : Name) (v : Value) : Draft :=
  let k := Text.ofChars kind
  let before := match d.members.get? k with
    | some (.list vs) => vs
    | _ => []
  { d with members := d.members.put k (.list (before ++ [v])) }

def Draft.addAttribute (d : Draft) (name : Name) (v : Value) (inner : List Gap) (trail : Gap) :
    Draft :=
  { members := d.members.put (Text.ofChars name) v
    attributes := name :: d.attributes
    comments := d.comments ++ Gap.comments trail
    inner := d.inner ++ inner.flatMap Gap.comments }

mutual

def Entry.addTo : Entry → Draft → Except Fault Draft
  | .gap g, d => .ok { d with comments := d.comments ++ Gap.comments g }
  | .attribute n e inner trail, d => do
    let v ← e.value.mapError Fault.numeral
    return d.addAttribute n v inner trail
  | .block kind labels body, d => do
    let b ← Body.addTo body ⟨[], [], [], []⟩
    let keys ← (labels.mapM Label.key).mapError Fault.numeral
    let v := keys.foldr (fun k v => Value.object [(Text.ofChars k, v)]) (.object b.finish)
    if d.attributes.contains kind then .error (.redefined kind) else return d.addBlock kind v

def Body.addTo : List Entry → Draft → Except Fault Draft
  | [], d => .ok d
  | e :: es, d => do
    let d ← e.addTo d
    Body.addTo es d

end

def Body.document (b : Body) : Except Fault Document := do
  return (← Body.addTo b ⟨[], [], [], []⟩).finish

end Terraload.Hcl
