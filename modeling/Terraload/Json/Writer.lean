import Terraload.Json.Reader
import Terraload.Number.Shortest
/-!
Values as JSON text in ASCII, with the members of an object in the order of their names.
-/
namespace Terraload.Json

def unitEscape (n : Nat) : List Char := '\\' :: 'u' :: hexDigits 4 n

def escape (c : CodePoint) : List Char :=
  let n := c.val
  match c with
  | .char '"' => ['\\', '"']
  | .char '\\' => ['\\', '\\']
  | .char '\n' => ['\\', 'n']
  | .char '\r' => ['\\', 'r']
  | .char '\t' => ['\\', 't']
  | .char '\x08' => ['\\', 'b']
  | .char '\x0c' => ['\\', 'f']
  | .char d =>
    if 32 ≤ n ∧ n < 127 then [d]
    else if n < 0x10000 then unitEscape n
    else
      let m := n - 0x10000
      unitEscape (0xD800 + m / 0x400) ++ unitEscape (0xDC00 + m % 0x400)
  | .surrogate _ => unitEscape n

def quote (t : Text) : List Char := '"' :: (t.flatMap escape ++ ['"'])

def realText : Binary64 → List Char
  | .nan => ['N', 'a', 'N']
  | .infinite s => (if s then ['-'] else []) ++ "Infinity".toList
  | x => x.render

inductive Layout
  | line
  | indented (width : Nat)

def Layout.separator : Layout → Nat → List Char
  | .line, _ => [',', ' ']
  | .indented w, depth => ',' :: '\n' :: List.replicate (w * depth) ' '

def Layout.opening : Layout → Nat → List Char
  | .line, _ => []
  | .indented w, depth => '\n' :: List.replicate (w * depth) ' '

def Layout.enclose (l : Layout) (depth : Nat) (left right : Char) : List (List Char) → List Char
  | [] => [left, right]
  | ws => left :: (l.opening (depth + 1) ++ (ws.intersperse (l.separator (depth + 1))).flatten
      ++ l.opening depth ++ [right])

mutual

def write (l : Layout) (depth : Nat) : Value → List Char
  | .null => ['n', 'u', 'l', 'l']
  | .boolean true => ['t', 'r', 'u', 'e']
  | .boolean false => ['f', 'a', 'l', 's', 'e']
  | .integer n => intDigits n
  | .real x => realText x
  | .text t => quote t
  | .list vs => l.enclose depth '[' ']' (writeItems l (depth + 1) vs)
  | .object ms =>
    l.enclose depth '{' '}' ((writeMembers l (depth + 1) ms).sorted.map fun m =>
      quote m.1 ++ ':' :: ' ' :: m.2)

def writeItems (l : Layout) (depth : Nat) : List Value → List (List Char)
  | [] => []
  | v :: vs => write l depth v :: writeItems l depth vs

def writeMembers (l : Layout) (depth : Nat) : List (Text × Value) → Members (List Char)
  | [] => []
  | (k, v) :: ms => (k, write l depth v) :: writeMembers l depth ms

end

def render (l : Layout) (v : Value) : List Char := write l 0 v

inductive Obstacle
  | tooManyDigits
  | tooDeep
  deriving DecidableEq

mutual

/-- What stops the writing of a value first, if so many lists and objects may stand in each other.
The members of an object come in the order of their names if `ordered` holds. -/
def obstacle? (ordered : Bool) : Nat → Value → Option Obstacle
  | _, .integer n =>
    if digitLimit < (natDigits n.natAbs).length then some .tooManyDigits else none
  | 0, .list _ | 0, .object _ => some .tooDeep
  | depth + 1, .list vs => itemsObstacle? ordered depth vs
  | depth + 1, .object ms =>
    let found := memberObstacles ordered depth ms
    (if ordered then found.sorted else found).findSome? (·.2)
  | _, _ => none

def itemsObstacle? (ordered : Bool) (depth : Nat) : List Value → Option Obstacle
  | [] => none
  | v :: vs => (obstacle? ordered depth v).or (itemsObstacle? ordered depth vs)

def memberObstacles (ordered : Bool) (depth : Nat) :
    List (Text × Value) → Members (Option Obstacle)
  | [] => []
  | (k, v) :: ms => (k, obstacle? ordered depth v) :: memberObstacles ordered depth ms

end

end Terraload.Json
