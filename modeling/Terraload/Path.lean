import Terraload.Text
/-!
Paths as texts: their parts, cleaned forms and joins.
-/
namespace Terraload.Path

def slash : CodePoint := .char '/'

def dot : Text := text "."

def dotdot : Text := text ".."

def parts (p : Text) : List Text := p.splitOn slash

def ofParts (ps : List Text) : Text := Text.join [slash] ps

/-- The leading slashes a cleaned path keeps: two if there are exactly two, else at most one. -/
def root : Text → Text
  | .char '/' :: .char '/' :: .char '/' :: _ => [slash]
  | .char '/' :: .char '/' :: _ => [slash, slash]
  | .char '/' :: _ => [slash]
  | _ => []

def names (p : Text) : List Text := (parts p).filter fun c => !c.isEmpty && c != dot

def clean (p : Text) : Text :=
  match root p ++ ofParts (names p) with
  | [] => dot
  | q => q

/-- Pushes a part on the reversed row of the parts before it. Two dots take back the part before
them, if there is one that is not two dots itself; at a root they are dropped. -/
def push (rooted : Bool) (stack : List Text) (c : Text) : List Text :=
  if c != dotdot then c :: stack
  else match stack with
    | [] => if rooted then [] else [dotdot]
    | d :: rest => if d == dotdot then c :: stack else rest

def normalize (p : Text) : Text :=
  let r := root p
  match r ++ ofParts ((names p).foldl (push (!r.isEmpty)) []).reverse with
  | [] => dot
  | q => q

def join (a b : Text) : Text :=
  match b with
  | .char '/' :: _ => b
  | _ => if a.isEmpty || a.getLast? == some slash then a ++ b else a ++ slash :: b

/-- The part after the last slash, and what stands before it without slashes at its end, unless it
is nothing else. -/
def split (p : Text) : Text × Text :=
  let tail := (p.reverse.takeWhile (· != slash)).reverse
  let head := p.take (p.length - tail.length)
  if head.all (· == slash) then (head, tail)
  else ((head.reverse.dropWhile (· == slash)).reverse, tail)

end Terraload.Path
