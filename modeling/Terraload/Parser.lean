import Terraload.Encoding
import Terraload.Hcl.Depth
import Terraload.Hcl.Evaluation
import Terraload.Json.Reader
/-!
Parsers of configuration files. A parser gives a document, rejects the content, or breaks off with a
failure of its own. Parsers are tried in order until one gives a document.
-/
namespace Terraload

structure Rejection where
  syntaxName : Text
  reason : Text
  deriving DecidableEq

def Rejection.message (r : Rejection) : Text := r.syntaxName ++ text ": " ++ r.reason

inductive Breakdown
  /-- A block has the name of an attribute of its body. -/
  | redefined (name : Text)
  | tooManyDigits (count : Nat)
  | tooDeep
  deriving DecidableEq

def digitsMessage (count : Nat) : Text :=
  text "Exceeds the limit (4300 digits) for integer string conversion: value has "
    ++ Text.ofChars (natDigits count)
    ++ text " digits; use sys.set_int_max_str_digits() to increase the limit"

def Breakdown.message : Breakdown → Text
  | .redefined n => text "Attribute " ++ n ++ text " is already defined."
  | .tooManyDigits n => digitsMessage n
  | .tooDeep => []

inductive Outcome
  | document (d : Document)
  | rejected (r : Rejection)
  | broken (b : Breakdown)
  deriving DecidableEq

structure Parser where
  name : Text
  parse : Bytes → Outcome

namespace Parser

def hclName : Text := text "hcl"
def jsonName : Text := text "json"

/-- The native syntax. What is nested deeper than a limit, if there is one, is not evaluated. -/
def hclWithin (limit : Option Nat) : Parser where
  name := hclName
  parse bytes :=
    let reject (reason : Text) : Outcome := .rejected ⟨hclName, reason⟩
    match Encoding.decodeUtf8 bytes with
    | .error p => reject (Text.ofChars p.message)
    | .ok s =>
      match Hcl.Body.read? s with
      | none => reject (text "syntax error")
      | some body =>
        if limit.any (· < Hcl.Body.depth body) then .broken .tooDeep
        else
          match body.document with
          | .ok d => .document d
          | .error (.redefined n) => .broken (.redefined (Text.ofChars n))
          | .error (.numeral (.tooManyDigits n)) => reject (digitsMessage n)
          | .error (.numeral (.notANumber ds)) =>
            reject (text "could not convert string to float: " ++ (Text.ofChars ds).quoted)

def hcl : Parser := hclWithin none

def jsonWithin (limit : Nat) : Parser where
  name := jsonName
  parse bytes :=
    let reject (reason : Text) : Outcome := .rejected ⟨jsonName, reason⟩
    match Encoding.decodeDetected bytes with
    | .error p => reject (Text.ofChars p.message)
    | .ok s =>
      match Json.read { Json.Rules.lenient with depth := limit } s with
      | .ok (.object d) => .document d
      | .ok _ => reject (text "top-level value must be an object")
      | .error (.malformed f left) => reject (Text.ofChars (f.render s left))
      | .error (.tooManyDigits n) => .broken (.tooManyDigits n)
      | .error .tooDeep => .broken .tooDeep

def json : Parser := jsonWithin Json.Rules.lenient.depth

@[simp] theorem lenient_eta :
    { Json.Rules.lenient with depth := Json.Rules.lenient.depth } = Json.Rules.lenient := rfl

def constant (name : Text) (o : Outcome) : Parser := ⟨name, fun _ => o⟩

/-- What trying parsers in order has found: a document or none, the rejections before it, and how
many parsers were called. -/
structure Trial where
  result : Except Breakdown (Option Document)
  rejections : List Rejection
  calls : Nat

def parseFirst : List Parser → Bytes → Trial
  | [], _ => ⟨.ok none, [], 0⟩
  | p :: ps, bytes =>
    match p.parse bytes with
    | .document d => ⟨.ok (some d), [], 1⟩
    | .broken b => ⟨.error b, [], 1⟩
    | .rejected r =>
      let t := parseFirst ps bytes
      ⟨t.result, r :: t.rejections, t.calls + 1⟩

end Parser

end Terraload
