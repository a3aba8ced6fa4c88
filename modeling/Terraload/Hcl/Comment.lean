import Terraload.Hcl.Expression
import Terraload.Text.Blank
/-!
The comments that a gap holds.
-/
namespace Terraload.Hcl

def splitLines : List Char → List (List Char)
  | [] => [[]]
  | '\n' :: r => [] :: splitLines r
  | c :: r =>
    match splitLines r with
    | [] => [[c]]
    | l :: ls => (c :: l) :: ls

def unmarked : List Char → List Char
  | '/' :: '/' :: r => r
  | '#' :: r => r
  | r => r

def longComment? (s : List Char) : Option (List Char) :=
  if ['/', '*'].isPrefixOf s && ['*', '/'].isSuffixOf s then some ((s.drop 2).take (s.length - 4))
  else none

def Gap.comments (g : Gap) : List (List Char) :=
  let said (s : List Char) : Option (List Char) :=
    let s := stripChars s
    if s.isEmpty then none else some s
  match longComment? (stripChars g) with
  | some s => (said s).toList
  | none => (splitLines g).filterMap fun l => said (unmarked (stripChars l))

end Terraload.Hcl
