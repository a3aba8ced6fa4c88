/-!
The tree of a configuration text: expressions, string templates, attributes and blocks. Layout that
answers can show is kept, as the raw text of a gap.
-/
namespace Terraload.Hcl

abbrev Gap := List Char

abbrev Name := List Char

inductive Numeral
  | integer (digits : List Char)
  | real (digits : List Char)
  deriving DecidableEq

inductive Constant
  | true
  | false
  | null
  deriving DecidableEq

inductive UnaryOp
  | negate
  | complement
  deriving DecidableEq

inductive BinaryOp
  | or | and | equal | unequal | less | greater | atMost | atLeast
  | plus | minus | times | divide | modulo
  deriving DecidableEq

def BinaryOp.level : BinaryOp → Nat
  | .or => 1
  | .and => 2
  | .equal | .unequal => 3
  | .less | .greater | .atMost | .atLeast => 4
  | .plus | .minus => 5
  | .times | .divide | .modulo => 6

structure Strip where
  left : Bool
  right : Bool
  deriving DecidableEq

mutual
inductive Expr
  | numeral (n : Numeral)
  | constant (c : Constant)
  | name (n : Name)
  | template (pieces : List Piece)
  /-- A string whose quotes are escaped, as it is written. -/
  | escaped (raw : List Char)
  | heredoc (raw : List Char)
  | tuple (items : List Expr)
  | object (items : List Item)
  | call (path : List Name) (args : List Expr) (spread : Bool)
  | group (e : Expr)
  | access (base : Expr) (steps : List Step)
  | unary (op : UnaryOp) (e : Expr)
  /-- An operation; `gap` stands before the operator and belongs to it. -/
  | binary (gap : Gap) (op : BinaryOp) (l r : Expr)
  | conditional (test yes no : Expr)
  | forTuple (names : List Name) (source : Expr) (value : Expr) (cond : List Expr)
  | forObject (names : List Name) (source : Expr) (key value : Expr) (grouping : Bool)
      (cond : List Expr)

inductive Item
  | keyword (key : Name) (value : Expr)
  | computed (key value : Expr)

inductive Step
  | attribute (n : Name)
  | position (digits : List Char)
  | index (e : Expr)
  | attributeSplat
  | fullSplat

inductive Piece
  | chars (cs : List Char)
  /-- An escaped interpolation or directive, as it is written. -/
  | verbatim (cs : List Char)
  | interpolation (e : Expr)
  | ifStart (strip : Strip) (test : Expr)
  | elseMark (strip : Strip)
  | ifEnd (strip : Strip)
  | forStart (strip : Strip) (names : List Name) (source : Expr)
  | forEnd (strip : Strip)
end

inductive Label
  | name (n : Name)
  | template (pieces : List Piece)
  | gap (g : Gap)

inductive Entry
  | gap (g : Gap)
  /-- An attribute, with the gaps inside its expression, and the gap that a final operation took. -/
  | attribute (name : Name) (value : Expr) (inner : List Gap) (trail : Gap)
  | block (kind : Name) (labels : List Label) (body : List Entry)

abbrev Body := List Entry

end Terraload.Hcl
