import Terraload.Hcl.Token
/-!
Reading configuration text into its tree. A word means what the place asks for: `for` is a name in a
sum and opens a comprehension after a bracket. Wherever two readings are possible the longer one is
taken.

The readers of the nested grammar share one measure, which each call lowers; `Body.read?` supplies
more of it than a text can use up.
-/
namespace Terraload.Hcl

/-- The characters that are left, and the gaps met so far inside the current expression. `firm` holds
right behind a gap of two parts or more, where no key word can be a name. -/
structure Cursor where
  rest : List Char
  inner : List Gap
  firm : Bool

abbrev Reader := StateT Cursor Option

namespace Reader

def word {α : Type} (f : List Char → Option (α × List Char)) : Reader α := fun c =>
  (f (skipBlanks c.rest)).map fun (a, r) => (a, { c with rest := r, firm := false })

def word? {α : Type} (f : List Char → Option (α × List Char)) : Reader (Option α) := fun c =>
  match f (skipBlanks c.rest) with
  | some (a, r) => some (some a, { c with rest := r, firm := false })
  | none => some (none, c)

def expect (w : List Char) : Reader Unit := word fun s => (dropWord? w s).map ((), ·)

def accept (w : List Char) : Reader Bool :=
  Option.isSome <$> word? fun s => (dropWord? w s).map ((), ·)

def name : Reader Name := word name?

/-- Fails right behind a gap of several parts if `bad` holds. -/
def unlessFirm (bad : Bool) : Reader Unit := fun c => if c.firm && bad then none else some ((), c)

def keyword? (w : List Char) : Reader Bool :=
  Option.isSome <$> word? fun s => (name? s).filter fun n => n.1 == w

def peek : Reader (List Char) := fun c => some (skipBlanks c.rest, c)

def raw : Reader (List Char) := fun c => some (c.rest, c)

def setRest (r : List Char) : Reader Unit := fun c => some ((), { c with rest := r, firm := false })

def gap : Reader Gap := fun c =>
  match gapRun (c.rest.length + 1) c.rest with
  | ([], _) => some ([], c)
  | (g :: gs, r) => some (g ++ gs.flatten, { c with rest := r, firm := !gs.isEmpty })

def note (g : Gap) : Reader Unit := fun c =>
  some ((), if g.isEmpty then c else { c with inner := c.inner ++ [g] })

def gaps : Reader Bool := do
  let g ← gap
  note g
  return !g.isEmpty

def quiet {α : Type} (r : Reader α) : Reader α := fun c =>
  (r c).map fun (a, d) => (a, { d with inner := c.inner })

end Reader

open Reader

structure Phrase where
  expr : Expr
  trail : Gap

def constant? (n : Name) : Option Constant :=
  if n == ['t', 'r', 'u', 'e'] then some .true
  else if n == ['f', 'a', 'l', 's', 'e'] then some .false
  else if n == ['n', 'u', 'l', 'l'] then some .null
  else none

def forWord : Name := ['f', 'o', 'r']
def ifWord : Name := ['i', 'f']
def inWord : Name := ['i', 'n']
def elseWord : Name := ['e', 'l', 's', 'e']
def endifWord : Name := ['e', 'n', 'd', 'i', 'f']
def endforWord : Name := ['e', 'n', 'd', 'f', 'o', 'r']
def forEachWord : Name := ['f', 'o', 'r', '_', 'e', 'a', 'c', 'h']

def keyWords : List Name :=
  [inWord, forWord, ifWord, forEachWord, elseWord, endifWord, endforWord]

def assign? (s : List Char) : Option (List Char) :=
  match equalsSign? s with
  | some r => some r
  | none => colon? s

def assign : Reader Unit := word fun s => (assign? s).map ((), ·)

def keywordKey? (s : List Char) : Option (Name × List Char) :=
  (name? s).filter fun (n, r) => keyWords.contains n && (assign? (skipBlanks r)).isSome

/-- An operator of a level from `floor` to `cap`, with the newline or comment that joins it. -/
def boundOperator? (floor cap : Nat) (s : List Char) : Option ((Gap × BinaryOp) × List Char) :=
  let (g, s) := match gap? s with
    | some (g, r) => if joins (skipBlanks r) then (g, skipBlanks r) else ([], s)
    | none => ([], s)
  match operator? s with
  | some (op, r) => if floor ≤ op.level ∧ op.level ≤ cap then some ((g, op), r) else none
  | none => none

def question? (s : List Char) : Option (Unit × List Char) :=
  match s with
  | '?' :: r => some ((), r)
  | _ => match gap? s with
    | some (_, r) => match skipBlanks r with
      | '?' :: r => some ((), r)
      | _ => none
    | none => none

def directiveWord? (s : List Char) : Option (Name × List Char) :=
  [endforWord, endifWord, elseWord, forWord, ifWord].findSome? fun w =>
    (dropWord? w s).map (w, ·)

def directiveEnd : Reader Bool := do
  let right ← accept ['~']
  expect ['}']
  return right

def loopNames : Reader (List Name) := do
  unlessFirm (((name? (← peek)).map fun w =>
    keyWords.contains w.1 || (constant? w.1).isSome).getD false)
  let a ← name
  if ← accept [','] then
    let b ← name
    return [a, b]
  else
    return [a]

inductive Open
  | branch
  | lastBranch
  | loop

def Piece.paired : List Open → List Piece → Bool
  | waiting, [] => waiting.isEmpty
  | waiting, .ifStart _ _ :: ps => paired (.branch :: waiting) ps
  | waiting, .forStart _ _ _ :: ps => paired (.loop :: waiting) ps
  | .branch :: waiting, .elseMark _ :: ps => paired (.lastBranch :: waiting) ps
  | .branch :: waiting, .ifEnd _ :: ps => paired waiting ps
  | .lastBranch :: waiting, .ifEnd _ :: ps => paired waiting ps
  | .loop :: waiting, .forEnd _ :: ps => paired waiting ps
  | _, .elseMark _ :: _ => false
  | _, .ifEnd _ :: _ => false
  | _, .forEnd _ :: _ => false
  | waiting, .chars _ :: ps => paired waiting ps
  | waiting, .verbatim _ :: ps => paired waiting ps
  | waiting, .interpolation _ :: ps => paired waiting ps

mutual

def expression : Nat → Reader Phrase
  | 0 => failure
  | n + 1 => do
    let t ← term n
    let p ← operations n 1 6 ⟨t, []⟩
    match ← word? question? with
    | none => return p
    | some () =>
      let _ ← gaps
      let yes ← expression n
      let _ ← gaps
      word fun s => (colon? s).map ((), ·)
      let _ ← gaps
      let no ← expression n
      return ⟨.conditional p.expr yes.expr no.expr, []⟩

/-- The operations after a first operand, with operators from `floor` to `cap`. The innermost
operation takes the gap that follows; one that starts with a comment belongs to the expression. -/
def operations : Nat → Nat → Nat → Phrase → Reader Phrase
  | 0, _, _, _ => failure
  | n + 1, floor, cap, left => do
    match ← word? (boundOperator? floor cap) with
    | none => return left
    | some (joined, op) =>
      let _ ← gaps
      let first ← term n
      let right ← operations n (op.level + 1) 6 ⟨first, []⟩
      let g ← gap
      let trail ← match g with
        | '\n' :: _ => pure g
        | _ => do note g; pure []
      operations n floor op.level ⟨.binary joined op left.expr right.expr, trail⟩

def term : Nat → Reader Expr
  | 0 => failure
  | n + 1 => do
    let s ← peek
    match s with
    | '!' :: r =>
      setRest r
      return .unary .complement (← operand n)
    | '-' :: r =>
      if (numeral? s).isSome then operand n
      else
        setRest r
        return .unary .negate (← operand n)
    | _ => operand n

def operand : Nat → Reader Expr
  | 0 => failure
  | n + 1 => do
    let b ← base n
    match ← steps n with
    | [] => return b
    | ss => return .access b ss

def base : Nat → Reader Expr
  | 0 => failure
  | n + 1 => do
    let s ← peek
    match s with
    | '"' :: r =>
      setRest r
      let ps ← quiet (pieces n)
      guard (Piece.paired [] ps)
      return .template ps
    | '\\' :: _ => return .escaped (← word escapedString?)
    | '<' :: _ => return .heredoc (← word heredoc?)
    | '[' :: r =>
      setRest r
      let _ ← gaps
      if ← keyword? forWord then forTuple n
      else return .tuple (← tupleItems n)
    | '{' :: r =>
      setRest r
      let _ ← gaps
      if (keywordKey? (← peek)).isSome then return .object (← objectItems n)
      else if ← keyword? forWord then forObject n
      else return .object (← objectItems n)
    | '(' :: r =>
      setRest r
      let _ ← gaps
      let p ← expression n
      let _ ← gaps
      expect [')']
      return .group p.expr
    | _ =>
      match ← word? numeral? with
      | some d => return .numeral d
      | none =>
        unlessFirm (((name? (← peek)).map fun w => keyWords.contains w.1).getD false)
        let a ← name
        match constant? a with
        | some c => return .constant c
        | none =>
          if ← accept [':', ':'] then
            let b ← name
            expect [':', ':']
            let c ← name
            expect ['(']
            call n [a, b, c]
          else if ← accept ['('] then call n [a]
          else return .name a

def call : Nat → List Name → Reader Expr
  | 0, _ => failure
  | n + 1, path => do
    let _ ← gaps
    if ← accept [')'] then return .call path [] false
    else
      let (args, spread) ← arguments n
      return .call path args spread

/-- Arguments up to the closing parenthesis. The last one may be followed by a comma or by three
points, though not on a line of its own. -/
def arguments : Nat → Reader (List Expr × Bool)
  | 0 => failure
  | n + 1 => do
    let p ← expression n
    let apart ← gaps
    if ← accept [','] then
      let _ ← gaps
      if !apart && (← accept [')']) then return ([p.expr], false)
      else
        let (args, spread) ← arguments n
        return (p.expr :: args, spread)
    else
      let spread ← if apart then pure false else accept ['.', '.', '.']
      let _ ← gaps
      expect [')']
      return ([p.expr], spread)

def tupleItems : Nat → Reader (List Expr)
  | 0 => failure
  | n + 1 => do
    if ← accept [']'] then return []
    else
      let p ← expression n
      let _ ← gaps
      if ← accept [','] then
        let _ ← gaps
        return p.expr :: (← tupleItems n)
      else
        expect [']']
        return [p.expr]

def objectItems : Nat → Reader (List Item)
  | 0 => failure
  | n + 1 => do
    if ← accept ['}'] then return []
    else
      let i ← quiet (objectItem n)
      let _ ← gaps
      let _ ← accept [',']
      let _ ← gaps
      return i :: (← objectItems n)

def objectItem : Nat → Reader Item
  | 0 => failure
  | n + 1 => do
    match (name? (← peek)).filter fun w => keyWords.contains w.1 with
    | some (w, r) =>
      setRest r
      assign
      return .keyword w (← expression n).expr
    | none =>
      let key ← expression n
      assign
      return .computed key.expr (← expression n).expr

def loopHead : Nat → Reader (List Name × Expr)
  | 0 => failure
  | n + 1 => do
    let _ ← gaps
    let names ← loopNames
    let _ ← gaps
    guard (← keyword? inWord)
    let _ ← gaps
    let source ← expression n
    let _ ← gaps
    word fun s => (colon? s).map ((), ·)
    let _ ← gaps
    return (names, source.expr)

/-- The condition of a comprehension, if there is one. `glued` tells that its first word need not be
apart from what follows. -/
def loopCondition : Nat → Bool → Reader (List Expr)
  | 0, _ => failure
  | n + 1, glued => do
    if ← (if glued && !(← get).firm then accept ifWord else keyword? ifWord) then
      let _ ← gaps
      let p ← expression n
      let _ ← gaps
      return [p.expr]
    else return []

def forTuple : Nat → Reader Expr
  | 0 => failure
  | n + 1 => do
    let (names, source) ← loopHead n
    let value ← expression n
    let _ ← gaps
    let cond ← loopCondition n false
    expect [']']
    return .forTuple names source value.expr cond

def forObject : Nat → Reader Expr
  | 0 => failure
  | n + 1 => do
    let (names, source) ← loopHead n
    let key ← expression n
    expect ['=', '>']
    let _ ← gaps
    let value ← expression n
    let _ ← gaps
    let grouping ← accept ['.', '.', '.']
    let _ ← gaps
    let cond ← loopCondition n grouping
    expect ['}']
    return .forObject names source key.expr value.expr grouping cond

def steps : Nat → Reader (List Step)
  | 0 => failure
  | n + 1 => do
    let s ← peek
    match s with
    | '.' :: '.' :: '.' :: _ => return []
    | '.' :: '*' :: r =>
      setRest r
      return .attributeSplat :: (← steps n)
    | '.' :: r =>
      setRest r
      match ← word? integer? with
      | some ds => return .position ds :: (← steps n)
      | none => return .attribute (← name) :: (← steps n)
    | '[' :: '*' :: ']' :: r =>
      setRest r
      return .fullSplat :: (← steps n)
    | '[' :: r =>
      setRest r
      let _ ← gaps
      let p ← expression n
      let _ ← gaps
      expect [']']
      return .index p.expr :: (← steps n)
    | _ => return []

def pieces : Nat → Reader (List Piece)
  | 0 => failure
  | n + 1 => do
    let s ← raw
    match s with
    | '"' :: r =>
      setRest r
      return []
    | '$' :: '$' :: '{' :: r =>
      let (w, r) ← (braced? r : Option (List Char × List Char))
      setRest r
      return .verbatim ('$' :: '$' :: '{' :: w) :: (← pieces n)
    | '%' :: '%' :: '{' :: r =>
      let (w, r) ← (braced? r : Option (List Char × List Char))
      setRest r
      return .verbatim ('%' :: '%' :: '{' :: w) :: (← pieces n)
    | '$' :: '{' :: r =>
      setRest r
      let p ← expression n
      expect ['}']
      return .interpolation p.expr :: (← pieces n)
    | '%' :: '{' :: r =>
      setRest r
      let d ← directive n
      return d :: (← pieces n)
    | _ =>
      let (w, r) := stringChars s
      guard (!w.isEmpty)
      setRest r
      return .chars w :: (← pieces n)

def directive : Nat → Reader Piece
  | 0 => failure
  | n + 1 => do
    let left ← accept ['~']
    let w ← word directiveWord?
    if w == ifWord then
      let p ← expression n
      return .ifStart ⟨left, ← directiveEnd⟩ p.expr
    else if w == forWord then
      let names ← loopNames
      guard (← keyword? inWord)
      let p ← expression n
      return .forStart ⟨left, ← directiveEnd⟩ names p.expr
    else if w == elseWord then return .elseMark ⟨left, ← directiveEnd⟩
    else if w == endifWord then return .ifEnd ⟨left, ← directiveEnd⟩
    else return .forEnd ⟨left, ← directiveEnd⟩

def entries : Nat → Reader Body
  | 0 => failure
  | n + 1 => do
    let g ← gap
    if !g.isEmpty then return .gap g :: (← entries n)
    else
      match ← word? name? with
      | none => return []
      | some w =>
        match equalsSign? (← peek) with
        | some r =>
          set (⟨r, [], false⟩ : Cursor)
          let p ← expression n
          let c ← get
          return .attribute w p.expr c.inner p.trail :: (← entries n)
        | none =>
          let ls ← labels n
          expect ['{']
          let body ← entries n
          expect ['}']
          return .block w ls body :: (← entries n)

def labels : Nat → Reader (List Label)
  | 0 => failure
  | n + 1 => do
    let g ← gap
    if !g.isEmpty then return [.gap g]
    else
      match ← peek with
      | '"' :: r =>
        setRest r
        let ps ← pieces n
        guard (Piece.paired [] ps)
        return .template ps :: (← labels n)
      | _ =>
        match ← word? name? with
        | some w => return .name w :: (← labels n)
        | none => return []

end

/-- The body that a text holds, if it is well formed. A newline is added at the end of the text. -/
def Body.read? (s : List Char) : Option Body :=
  let s := s ++ ['\n']
  match entries (12 * (s.length + 2)) ⟨s, [], false⟩ with
  | some (body, c) => if (skipBlanks c.rest).isEmpty then some body else none
  | none => none

end Terraload.Hcl
