import Terraload.Hcl.Expression
/-!
How deep a configuration text is nested: one level for each expression inside another, for each step
of an access behind the one before it, and for each block.
-/
namespace Terraload.Hcl

mutual

def Expr.depth : Expr → Nat
  | .numeral _ | .constant _ | .name _ | .escaped _ | .heredoc _ => 1
  | .template ps => piecesDepth ps + 1
  | .tuple es => exprsDepth es + 1
  | .object is => itemsDepth is + 1
  | .call _ args _ => exprsDepth args + 1
  | .group e => e.depth + 1
  | .access b ss => accessDepth b.depth ss
  | .unary _ e => e.depth + 1
  | .binary _ _ l r => max l.depth r.depth + 1
  | .conditional c a b => max c.depth (max a.depth b.depth) + 1
  | .forTuple _ s v cond => max s.depth (max v.depth (exprsDepth cond)) + 1
  | .forObject _ s k v _ cond =>
    max s.depth (max k.depth (max v.depth (exprsDepth cond))) + 1

def exprsDepth : List Expr → Nat
  | [] => 0
  | e :: es => max e.depth (exprsDepth es)

def itemsDepth : List Item → Nat
  | [] => 0
  | .keyword _ v :: is => max v.depth (itemsDepth is)
  | .computed k v :: is => max (max k.depth v.depth) (itemsDepth is)

def accessDepth (before : Nat) : List Step → Nat
  | [] => before
  | .index e :: ss => accessDepth (max before e.depth + 1) ss
  | _ :: ss => accessDepth (before + 1) ss

def piecesDepth : List Piece → Nat
  | [] => 0
  | .interpolation e :: ps | .ifStart _ e :: ps | .forStart _ _ e :: ps =>
    max e.depth (piecesDepth ps)
  | _ :: ps => piecesDepth ps

end

def Label.depth : Label → Nat
  | .template ps => piecesDepth ps + 1
  | _ => 1

mutual

def Entry.depth : Entry → Nat
  | .gap _ => 0
  | .attribute _ e _ _ => e.depth + 1
  | .block _ labels body => max ((labels.map Label.depth).foldr max 0) (Body.depth body) + 1

def Body.depth : List Entry → Nat
  | [] => 0
  | e :: es => max e.depth (Body.depth es)

end

end Terraload.Hcl
