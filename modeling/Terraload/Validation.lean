import Terraload.Text.Blank
import Terraload.Value
/-!
Checks that turn a value into a typed one. A check that fails lists every problem it has found, each
with the place it was found at; checks of several parts collect the problems of all of them.
-/
namespace Terraload

inductive PlaceStep
  | member (name : Text)
  | item (index : Nat)
  deriving DecidableEq

inductive ProblemKind
  | notAnObject
  | notAMap
  | notAList
  | notAString
  | fractionalInteger
  | infiniteInteger
  | oversizedInteger
  | unreadableInteger
  | notAnInteger
  | unreadableBoolean
  | notABoolean
  | emptyString
  | surrogateInString
  | invalidText
  deriving DecidableEq

namespace ProblemKind

def code : ProblemKind → String
  | .notAnObject => "model_type"
  | .notAMap => "dict_type"
  | .notAList => "list_type"
  | .notAString => "string_type"
  | .fractionalInteger => "int_from_float"
  | .infiniteInteger => "finite_number"
  | .oversizedInteger => "int_parsing_size"
  | .unreadableInteger => "int_parsing"
  | .notAnInteger => "int_type"
  | .unreadableBoolean => "bool_parsing"
  | .notABoolean => "bool_type"
  | .emptyString => "string_too_short"
  | .surrogateInString => "string_unicode"
  | .invalidText => "json_invalid"

def message? : ProblemKind → Option String
  | .notAnObject => some "Input should be an object"
  | .notAMap => some "Input should be an object"
  | .notAList => some "Input should be a valid array"
  | .notAString => some "Input should be a valid string"
  | .fractionalInteger =>
    some "Input should be a valid integer, got a number with a fractional part"
  | .infiniteInteger => some "Input should be a finite number"
  | .oversizedInteger => some "Unable to parse input string as an integer, exceeded maximum size"
  | .unreadableInteger =>
    some "Input should be a valid integer, unable to parse string as an integer"
  | .notAnInteger => some "Input should be a valid integer"
  | .unreadableBoolean => some "Input should be a valid boolean, unable to interpret input"
  | .notABoolean => some "Input should be a valid boolean"
  | .emptyString => some "String should have at least 1 character"
  | .surrogateInString =>
    some "Input should be a valid string, unable to parse raw data as a unicode string"
  | .invalidText => none

end ProblemKind

structure Problem where
  place : List PlaceStep
  kind : ProblemKind
  deriving DecidableEq

inductive Verdict (α : Type)
  | passed (a : α)
  | failed (problems : List Problem)
  deriving DecidableEq

namespace Verdict

variable {α β : Type}

def map (f : α → β) : Verdict α → Verdict β
  | .passed a => .passed (f a)
  | .failed ps => .failed ps

def ap (f : Verdict (α → β)) (a : Verdict α) : Verdict β :=
  match f, a with
  | .passed f, .passed a => .passed (f a)
  | .failed ps, .passed _ => .failed ps
  | .passed _, .failed ps => .failed ps
  | .failed ps, .failed qs => .failed (ps ++ qs)

def within (step : PlaceStep) : Verdict α → Verdict α
  | .passed a => .passed a
  | .failed ps => .failed (ps.map fun p => { p with place := step :: p.place })

end Verdict

abbrev Check (α : Type) := Value → Verdict α

namespace Check

def reject {α : Type} (k : ProblemKind) : Verdict α := .failed [⟨[], k⟩]

def any : Check Value := .passed

def string : Check Text
  | .text t => .passed t
  | _ => reject .notAString

def nonEmptyString : Check Text
  | .text t =>
    match t.toChars? with
    | none => reject .surrogateInString
    | some [] => reject .emptyString
    | some _ => .passed t
  | _ => reject .notAString

/-- The size from which on an integer does not fit a machine word. -/
def wordBound : Nat := Nat.pow 2 63

def integerOfReal (x : Binary64) : Except ProblemKind Int :=
  match x with
  | .finite _ _ _ =>
    match x.toInt? with
    | none => .error .fractionalInteger
    | some n => if n.natAbs < wordBound then .ok n else .error .oversizedInteger
  | _ => .error .infiniteInteger

def groupedDigits? : List Char → Option (List Char)
  | [] => none
  | [c] => if decimalDigit c then some [c] else none
  | c :: '_' :: r => if decimalDigit c then (groupedDigits? r).map (c :: ·) else none
  | c :: r => if decimalDigit c then (groupedDigits? r).map (c :: ·) else none

def beforeZeros? (cs : List Char) : Option (List Char) :=
  match cs.dropWhile (· != '.') with
  | [] => some cs
  | _ :: zeros =>
    if zeros.isEmpty || !zeros.all (· == '0') then none else some (cs.takeWhile (· != '.'))

/-- The integer a text writes: blank space around it, a sign, grouped digits and a fraction of zeros
are allowed. -/
def integerOfText (t : Text) : Except ProblemKind Int :=
  match (trimWhile (fun c => spaceCode c.val) t).mapM CodePoint.toChar? with
  | none => .error .unreadableInteger
  | some cs =>
    let (minus, cs) := match cs with
      | '-' :: r => (true, r)
      | '+' :: r => (false, r)
      | r => (false, r)
    match (beforeZeros? cs).bind groupedDigits? with
    | none => .error .unreadableInteger
    | some ds =>
      if 4300 < (ds.dropWhile (· == '0')).length then .error .oversizedInteger
      else .ok (if minus then - (natOfDigits ds : Int) else natOfDigits ds)

def ofExcept {α : Type} : Except ProblemKind α → Verdict α
  | .ok a => .passed a
  | .error k => reject k

def integer : Check Int
  | .integer n => .passed n
  | .boolean b => .passed (if b then 1 else 0)
  | .real x => ofExcept (integerOfReal x)
  | .text t => ofExcept (integerOfText t)
  | _ => reject .notAnInteger

def lowerChar (c : Char) : Char := if 'A' ≤ c ∧ c ≤ 'Z' then Char.ofNat (c.toNat + 32) else c

def trueWords : List String := ["1", "on", "t", "true", "y", "yes"]
def falseWords : List String := ["0", "off", "f", "false", "n", "no"]

def booleanOfChars? (cs : List Char) : Option Bool :=
  let w := String.ofList (cs.map lowerChar)
  if trueWords.contains w then some true
  else if falseWords.contains w then some false
  else none

def booleanOfInt (n : Int) : Verdict Bool :=
  if n = 0 then .passed false
  else if n = 1 then .passed true
  else reject .unreadableBoolean

def boolean : Check Bool
  | .boolean b => .passed b
  | .integer n =>
    if -(wordBound : Int) ≤ n ∧ n < wordBound then booleanOfInt n else reject .notABoolean
  | .real x =>
    match integerOfReal x with
    | .ok n => booleanOfInt n
    | .error _ => reject .notABoolean
  | .text t =>
    match t.toChars? with
    | none => reject .surrogateInString
    | some cs =>
      match booleanOfChars? cs with
      | some b => .passed b
      | none => reject .unreadableBoolean
  | _ => reject .notABoolean

variable {α : Type}

def nullable (c : Check α) : Check (Option α)
  | .null => .passed none
  | v => (c v).map some

def itemsFrom (c : Check α) : Nat → List Value → Verdict (List α)
  | _, [] => .passed []
  | i, v :: vs => (((c v).within (.item i)).map List.cons).ap (itemsFrom c (i + 1) vs)

def list (c : Check α) : Check (List α)
  | .list vs => itemsFrom c 0 vs
  | _ => reject .notAList

def membersOf (c : Check α) : Members Value → Verdict (Members α)
  | [] => .passed []
  | (k, v) :: ms =>
    (((c v).within (.member k)).map fun a => List.cons (k, a)).ap (membersOf c ms)

def map (c : Check α) : Check (Members α)
  | .object ms => membersOf c ms
  | _ => reject .notAMap

def object (c : Members Value → Verdict α) : Check α
  | .object ms => c ms
  | _ => reject .notAnObject

def field (ms : Members Value) (name : String) (default : α) (c : Check α) : Verdict α :=
  match ms.get? (text name) with
  | some v => (c v).within (.member (text name))
  | none => .passed default

end Check

end Terraload
