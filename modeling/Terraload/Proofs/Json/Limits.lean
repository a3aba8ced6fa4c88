import Terraload.Proofs.Json.Writing
import Terraload.Proofs.Number.Digits
/-!
The limits of a writer. A value that could be told by a text is written unless there is an integer
with too many digits in it, or lists and objects stand in each other too deep.
-/
namespace Terraload.Json

variable {lone ordered : Bool} {depth n : Nat} {k : Text} {v : Value} {vs : List Value}
  {ms more : Members Value}

/-- Values that a text can tell: texts are legible, no object has a name twice, and there are no
fractions. -/
inductive Proper (lone : Bool) : Value → Prop
  | null : Proper lone .null
  | boolean (b : Bool) : Proper lone (.boolean b)
  | integer (n : Int) : Proper lone (.integer n)
  | text {t : Text} (h : Legible lone t) : Proper lone (.text t)
  | list {vs : List Value} (h : ∀ v ∈ vs, Proper lone v) : Proper lone (.list vs)
  | object {ms : Members Value} (hnodup : ms.names.Nodup) (hnames : ∀ m ∈ ms, Legible lone m.1)
      (h : ∀ m ∈ ms, Proper lone m.2) : Proper lone (.object ms)

theorem Proper.of_names (names : List String) (hnames : ms.names = names.map Terraload.text)
    (hnodup : names.Nodup) (h : ∀ m ∈ ms, Proper lone m.2) : Proper lone (.object ms) := by
  obtain ⟨hdistinct, hlegible⟩ := nodup_legible_of_names names hnames hnodup
  exact .object hdistinct hlegible h

theorem Proper.nodup_names (h : Proper lone (.object ms)) : ms.names.Nodup := by
  cases h with
  | object hnodup _ _ => exact hnodup

theorem Proper.put (h : Proper lone (.object ms)) (hk : Legible lone k) (hv : Proper lone v) :
    Proper lone (.object (ms.put k v)) := by
  cases h with
  | object hnodup hnames hvalues =>
    refine .object (Members.nodup_names_put hnodup k v) (fun m hm => ?_) fun m hm => ?_
    · obtain rfl | hm := Members.mem_put hm
      · exact hk
      · exact hnames m hm
    · obtain rfl | hm := Members.mem_put hm
      · exact hv
      · exact hvalues m hm

theorem Proper.putAll (h : Proper lone (.object ms)) (hmore : Proper lone (.object more)) :
    Proper lone (.object (ms.putAll more)) := by
  cases hmore with
  | object hnodup hnames hvalues =>
    induction more generalizing ms with
    | nil => exact h
    | cons m more ih =>
      obtain ⟨hname, hnames⟩ := List.forall_mem_cons.mp hnames
      obtain ⟨hvalue, hvalues⟩ := List.forall_mem_cons.mp hvalues
      exact ih (h.put hname hvalue) (List.nodup_cons.mp hnodup).2 hnames hvalues

inductive Within : Nat → Value → Prop
  | null {depth : Nat} : Within depth .null
  | boolean {depth : Nat} (b : Bool) : Within depth (.boolean b)
  | integer {depth : Nat} {n : Int} (h : (natDigits n.natAbs).length ≤ digitLimit) :
      Within depth (.integer n)
  | real {depth : Nat} (x : Binary64) : Within depth (.real x)
  | text {depth : Nat} (t : Text) : Within depth (.text t)
  | list {depth : Nat} {vs : List Value} (h : ∀ v ∈ vs, Within depth v) :
      Within (depth + 1) (.list vs)
  | object {depth : Nat} {ms : Members Value} (h : ∀ m ∈ ms, Within depth m.2) :
      Within (depth + 1) (.object ms)

theorem within_integer {n : Int} :
    Within depth (.integer n) ↔ (natDigits n.natAbs).length ≤ digitLimit :=
  ⟨fun h => by cases h with | integer h => exact h, .integer⟩

theorem not_within_of_le (h : 10 ^ digitLimit ≤ n) : ¬ Within depth (.integer n) := by
  rw [within_integer, Int.natAbs_natCast]
  exact Nat.not_le.mpr (lt_natDigits_length h)

theorem within_list : Within (depth + 1) (.list vs) ↔ ∀ v ∈ vs, Within depth v :=
  ⟨fun | .list h => h, .list⟩

theorem within_object : Within (depth + 1) (.object ms) ↔ ∀ m ∈ ms, Within depth m.2 :=
  ⟨fun | .object h => h, .object⟩

theorem Within.mono {limit : Nat} (h : Within depth v) (hdepth : depth ≤ limit) :
    Within limit v := by
  induction h generalizing limit with
  | null => exact .null
  | boolean b => exact .boolean b
  | integer h => exact .integer h
  | real x => exact .real x
  | text t => exact .text t
  | list _ ih =>
    obtain ⟨limit, rfl⟩ := Nat.exists_eq_add_of_le' hdepth
    exact .list fun v hv => ih v hv (Nat.le_add_left _ _)
  | object _ ih =>
    obtain ⟨limit, rfl⟩ := Nat.exists_eq_add_of_le' hdepth
    exact .object fun m hm => ih m hm (Nat.le_add_left _ _)

theorem Proper.writable (h : Proper lone v) (hv : Within depth v) : Writable lone depth v := by
  induction h generalizing depth with
  | null => exact .null
  | boolean b => exact .boolean b
  | integer n =>
    cases hv with
    | integer h => exact .integer h
  | text h => exact .text h
  | list h ih =>
    cases hv with
    | list hvs => exact .list fun v hv => ih v hv (hvs v hv)
  | object hnodup hnames h ih =>
    cases hv with
    | object hms => exact .object hnodup hnames fun m hm => ih m hm (hms m hm)

theorem findSome?_obstacle_eq_none {found : Members (Option Obstacle)} :
    (if ordered then found.sorted else found).findSome? (·.2) = none ↔ ∀ m ∈ found, m.2 = none := by
  rw [List.findSome?_eq_none_iff]
  cases ordered with
  | true => exact forall_congr' fun m => imp_congr_left (Members.perm_sorted found).mem_iff
  | false => exact .rfl

mutual

/-- Nothing stops the writing of a value exactly if it is within the limits. -/
theorem obstacle?_eq_none (ordered : Bool) :
    ∀ (depth : Nat) (v : Value), obstacle? ordered depth v = none ↔ Within depth v
  | _, .null => iff_of_true (by simp [obstacle?]) .null
  | _, .boolean b => iff_of_true (by simp [obstacle?]) (.boolean b)
  | _, .real x => iff_of_true (by simp [obstacle?]) (.real x)
  | _, .text t => iff_of_true (by simp [obstacle?]) (.text t)
  | _, .integer n => by
    rw [obstacle?, within_integer]
    simp
  | 0, .list _ | 0, .object _ => iff_of_false (by simp [obstacle?]) nofun
  | depth + 1, .list vs => by
    rw [obstacle?, within_list]
    exact itemsObstacle?_eq_none ordered depth vs
  | depth + 1, .object ms => by
    rw [obstacle?, within_object]
    exact findSome?_obstacle_eq_none.trans (memberObstacles_eq_none ordered depth ms)

theorem itemsObstacle?_eq_none (ordered : Bool) : ∀ (depth : Nat) (vs : List Value),
    itemsObstacle? ordered depth vs = none ↔ ∀ v ∈ vs, Within depth v
  | _, [] => iff_of_true rfl (List.forall_mem_nil _)
  | depth, v :: vs => by
    rw [itemsObstacle?, Option.or_eq_none_iff, List.forall_mem_cons]
    exact and_congr (obstacle?_eq_none ordered depth v) (itemsObstacle?_eq_none ordered depth vs)

theorem memberObstacles_eq_none (ordered : Bool) : ∀ (depth : Nat) (ms : List (Text × Value)),
    (∀ m ∈ memberObstacles ordered depth ms, m.2 = none) ↔ ∀ m ∈ ms, Within depth m.2
  | _, [] => iff_of_true (List.forall_mem_nil _) (List.forall_mem_nil _)
  | depth, (_, v) :: ms => by
    rw [memberObstacles, List.forall_mem_cons, List.forall_mem_cons]
    exact and_congr (obstacle?_eq_none ordered depth v) (memberObstacles_eq_none ordered depth ms)

end

end Terraload.Json
