import Terraload.Parser
/-!
Failures of a session, their wording and the hints that go with them.
-/
namespace Terraload

inductive SystemKind
  | absent | denied | notDirectory | isDirectory | present | blocking | noChild | brokenPipe
  | aborted | refused | reset | interrupted | noProcess | timedOut | other
  deriving DecidableEq

def SystemKind.ofNumber (n : Int) : SystemKind :=
  if n = 2 then .absent
  else if n = 1 ∨ n = 13 then .denied
  else if n = 20 then .notDirectory
  else if n = 21 then .isDirectory
  else if n = 17 then .present
  else if n = 11 ∨ n = 114 ∨ n = 115 then .blocking
  else if n = 10 then .noChild
  else if n = 32 ∨ n = 108 then .brokenPipe
  else if n = 103 then .aborted
  else if n = 111 then .refused
  else if n = 104 then .reset
  else if n = 4 then .interrupted
  else if n = 3 then .noProcess
  else if n = 110 then .timedOut
  else .other

/-- What a failure says about itself: nothing, one thing, or several in parentheses. -/
def describe : List Value → Text
  | [] => []
  | [v] => v.display
  | vs => .char '(' :: (Text.join (text ", ") (vs.map Value.literal) ++ [.char ')'])

structure SystemError where
  kind : SystemKind
  details : List Value
  deriving DecidableEq

def SystemError.message (e : SystemError) : Text :=
  match e.details with
  | n :: t :: rest =>
    if rest.length ≤ 3 then
      let head := text "[Errno " ++ n.display ++ text "] " ++ t.display
      match rest with
      | [] => head
      | .null :: _ => head
      | p :: _ => head ++ text ": " ++ p.literal
    else describe e.details
  | _ => describe e.details

def SystemError.ofNumber (n : Nat) (wording : String) (path : Text) : SystemError :=
  ⟨.ofNumber n, [.integer n, .text (text wording), .text path]⟩

inductive LoadError
  | cannotOpen (path : Text) (cause : Option SystemError)
  | unparsable (path reason : Text) (cause : Option Rejection)
  | notFetched (source key : Text)
  | unspecified (details : List Value)
  deriving DecidableEq

def LoadError.message : LoadError → Text
  | .cannotOpen path _ => text "Cannot open file " ++ path
  | .unparsable path _ _ => text "Parse error occurred by " ++ path
  | .notFetched source _ =>
    text "module \x60" ++ source ++ text "\x60 not found. Did you run \x60terraform get\x60?"
  | .unspecified details => describe details

def unencodableMessage (path : Text) : Text :=
  let rest := path.dropWhile Encoding.encodable
  let position := path.length - rest.length
  let place := match rest.takeWhile fun c => c.toChar?.isNone with
    | [c] => text "character \x27\\u" ++ Text.ofChars (hexDigits 4 c.val)
        ++ text "\x27 in position " ++ Text.ofChars (natDigits position)
    | cs => text "characters in position " ++ Text.ofChars (natDigits position) ++ text "-"
        ++ Text.ofChars (natDigits (position + cs.length - 1))
  text "\x27utf-8\x27 codec can\x27t encode " ++ place ++ text ": surrogates not allowed"

inductive Failure
  | load (e : LoadError)
  | system (e : SystemError)
  | rejected (r : Rejection)
  | broken (b : Breakdown)
  | nulInPath
  | unencodable (path : Text)
  | other (details : List Value)
  deriving DecidableEq

namespace Failure

def message : Failure → Text
  | .load e => e.message
  | .system e => e.message
  | .rejected r => r.message
  | .broken b => b.message
  | .nulInPath => text "embedded null byte"
  | .unencodable path => unencodableMessage path
  | .other details => describe details

def defaultHint : Text := text "Check the configuration files and try again."

def hint : Failure → Text
  | .load (.notFetched _ _) => text "Run \x60terraform get\x60 to fetch modules first."
  | .load (.cannotOpen _ _) =>
    text "The file disappeared or is unreadable. Check its permissions."
  | .load (.unparsable _ _ _) =>
    text "Invalid HCL syntax. Run \x60terraform validate\x60 to locate the problem."
  | .system e =>
    if e.kind = .absent then text "The directory does not exist. Check the path." else defaultHint
  | _ => defaultHint

def reason? : Failure → Option Text
  | .load (.unparsable _ reason _) => if reason.isEmpty then none else some reason
  | _ => none

def render (withHint : Bool) (f : Failure) : Text :=
  let head := text "ERROR: " ++ f.message
  let body := match f.reason? with
    | some r => head ++ text "\n    " ++ r
    | none => head
  if withHint then body ++ text "\n    Hint: " ++ f.hint else body

end Failure

end Terraload
