import Terraload.Value
import Terraload.Text.Quoted
import Terraload.Number.Shortest
/-!
Values in literal form: texts in quotes, lists in brackets, objects in braces.
-/
namespace Terraload.Value

mutual

def literal : Value → Text
  | .null => Terraload.text "None"
  | .boolean true => Terraload.text "True"
  | .boolean false => Terraload.text "False"
  | .integer n => Text.ofChars (intDigits n)
  | .real x => Text.ofChars x.render
  | .text t => t.quoted
  | .list vs => .char '[' :: (Text.join (Terraload.text ", ") (literals vs) ++ [.char ']'])
  | .object ms => .char '{' :: (Text.join (Terraload.text ", ") (literalMembers ms) ++ [.char '}'])

def literals : List Value → List Text
  | [] => []
  | v :: vs => literal v :: literals vs

def literalMembers : List (Text × Value) → List Text
  | [] => []
  | (k, v) :: ms => (k.quoted ++ Terraload.text ": " ++ literal v) :: literalMembers ms

end

def display : Value → Text
  | .text t => t
  | v => v.literal

end Terraload.Value
