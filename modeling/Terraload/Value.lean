import Terraload.Text
import Terraload.Number.Binary64
/-!
Values of a configuration document, and objects as rows of members in the order of their first
appearance.
-/
namespace Terraload

inductive Value
  | null
  | boolean (b : Bool)
  | integer (n : Int)
  | real (x : Binary64)
  | text (t : Text)
  | list (items : List Value)
  | object (members : List (Text × Value))
  deriving Inhabited

mutual

def Value.beq : Value → Value → Bool
  | .null, .null => true
  | .boolean a, .boolean b => decide (a = b)
  | .integer m, .integer n => decide (m = n)
  | .real x, .real y => decide (x = y)
  | .text s, .text t => decide (s = t)
  | .list vs, .list ws => Value.itemsBeq vs ws
  | .object ms, .object ns => Value.membersBeq ms ns
  | _, _ => false

def Value.itemsBeq : List Value → List Value → Bool
  | [], [] => true
  | v :: vs, w :: ws => v.beq w && Value.itemsBeq vs ws
  | _, _ => false

def Value.membersBeq : List (Text × Value) → List (Text × Value) → Bool
  | [], [] => true
  | (s, v) :: ms, (t, w) :: ns => decide (s = t) && v.beq w && Value.membersBeq ms ns
  | _, _ => false

end

mutual

theorem Value.beq_iff : (v w : Value) → (v.beq w = true ↔ v = w)
  | .null, w => by cases w <;> simp [Value.beq]
  | .boolean _, w => by cases w <;> simp [Value.beq]
  | .integer _, w => by cases w <;> simp [Value.beq]
  | .real _, w => by cases w <;> simp [Value.beq]
  | .text _, w => by cases w <;> simp [Value.beq]
  | .list vs, w => by cases w <;> simp [Value.beq, Value.itemsBeq_iff vs]
  | .object ms, w => by cases w <;> simp [Value.beq, Value.membersBeq_iff ms]

theorem Value.itemsBeq_iff : (vs ws : List Value) → (Value.itemsBeq vs ws = true ↔ vs = ws)
  | [], ws => by cases ws <;> simp [Value.itemsBeq]
  | v :: vs, ws => by cases ws <;> simp [Value.itemsBeq, Value.beq_iff v, Value.itemsBeq_iff vs]

theorem Value.membersBeq_iff :
    (ms ns : List (Text × Value)) → (Value.membersBeq ms ns = true ↔ ms = ns)
  | [], ns => by cases ns <;> simp [Value.membersBeq]
  | _ :: _, [] => by simp [Value.membersBeq]
  | (s, v) :: ms, (t, w) :: ns => by
    simp [Value.membersBeq, Value.beq_iff v, Value.membersBeq_iff ms]

end

-- No instance is derived through lists of values; this one is computed by the recursion.
instance : DecidableEq Value := fun v w => decidable_of_iff _ (Value.beq_iff v w)

/-- Pairs of a name and what it stands for; no name occurs twice. -/
abbrev Members (α : Type) := List (Text × α)

namespace Members

variable {α : Type}

def get? (name : Text) (ms : Members α) : Option α := List.lookup name ms

/-- Gives a name a new meaning. A name that was there keeps its place, a new one comes last. -/
def put (name : Text) (a : α) : Members α → Members α
  | [] => [(name, a)]
  | m :: ms => if m.1 = name then (name, a) :: ms else m :: put name a ms

def putAll (ms : Members α) (more : List (Text × α)) : Members α :=
  more.foldl (fun ms m => ms.put m.1 m.2) ms

def sorted (ms : Members α) : Members α := ms.mergeSort fun a b => a.1.le b.1

end Members

abbrev Document := Members Value

end Terraload
