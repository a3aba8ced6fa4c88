import Terraload.Text
/-!
Control sequences that set the style of what a terminal shows: an escape character, a bracket,
digits, semicolons and question marks, and one letter. What is printed to a file is printed without
them.
-/
namespace Terraload.Text

def escapeMark : CodePoint := .char '\x1b'

def styleParameter : CodePoint → Bool
  | .char c => ('0' ≤ c && c ≤ '9') || c == ';' || c == '?'
  | .surrogate _ => false

def styleEnd : CodePoint → Bool
  | .char c => ('a' ≤ c && c ≤ 'z') || ('A' ≤ c && c ≤ 'Z')
  | .surrogate _ => false

def styleRest? : Text → Option Nat
  | [] => none
  | c :: t =>
    if styleEnd c then some 1
    else if styleParameter c then (styleRest? t).map (· + 1)
    else none

def styleLength? : Text → Option Nat
  | .char '[' :: t => (styleRest? t).map (· + 1)
  | _ => none

/-- Leaves out so many code points, and all sequences behind them. -/
def unstyledFrom : Nat → Text → Text
  | _, [] => []
  | n + 1, _ :: t => unstyledFrom n t
  | 0, c :: t =>
    if c = escapeMark then
      match styleLength? t with
      | some n => unstyledFrom n t
      | none => c :: unstyledFrom 0 t
    else c :: unstyledFrom 0 t

def unstyled (t : Text) : Text := unstyledFrom 0 t

end Terraload.Text
