import Terraload.Proofs.Members
import Terraload.Proofs.Number.Digits
import Terraload.Validation
/-!
What a check has passed: all its parts, with the value they make. A check that fails has the problems
of its parts, in their order.
-/
namespace Terraload

namespace Verdict

variable {α β : Type}

theorem map_eq_passed {f : α → β} {v : Verdict α} {b : β} :
    v.map f = .passed b ↔ ∃ a, v = .passed a ∧ f a = b := by
  cases v <;> simp [map]

theorem map_passed {f : α → β} {v : Verdict α} {a : α} (h : v = .passed a) :
    v.map f = .passed (f a) := map_eq_passed.mpr ⟨a, h, rfl⟩

theorem ap_eq_passed {f : Verdict (α → β)} {v : Verdict α} {b : β} :
    f.ap v = .passed b ↔ ∃ g a, f = .passed g ∧ v = .passed a ∧ g a = b := by
  cases f <;> cases v <;> simp [ap]

theorem ap_passed {f : Verdict (α → β)} {v : Verdict α} {g : α → β} {a : α} (hf : f = .passed g)
    (hv : v = .passed a) : f.ap v = .passed (g a) := ap_eq_passed.mpr ⟨g, a, hf, hv, rfl⟩

theorem within_eq_passed {v : Verdict α} {step : PlaceStep} {a : α} :
    v.within step = .passed a ↔ v = .passed a := by
  cases v <;> simp [within]

def problems : Verdict α → List Problem
  | .passed _ => []
  | .failed ps => ps

@[simp] theorem problems_map (f : α → β) (v : Verdict α) : (v.map f).problems = v.problems := by
  cases v <;> rfl

@[simp] theorem problems_ap (f : Verdict (α → β)) (v : Verdict α) :
    (f.ap v).problems = f.problems ++ v.problems := by
  cases f with
  | passed f => cases v <;> rfl
  | failed ps =>
    cases v with
    | passed a => exact (List.append_nil ps).symm
    | failed qs => rfl

def passes : Verdict α → Bool
  | .passed _ => true
  | .failed _ => false

theorem passes_iff {v : Verdict α} : v.passes = true ↔ ∃ a, v = .passed a := by
  cases v <;> simp [passes]

@[simp] theorem passes_map (f : α → β) (v : Verdict α) : (v.map f).passes = v.passes := by
  cases v <;> rfl

@[simp] theorem passes_ap (f : Verdict (α → β)) (v : Verdict α) :
    (f.ap v).passes = (f.passes && v.passes) := by
  cases f <;> cases v <;> rfl

theorem within_map (f : α → β) (v : Verdict α) (step : PlaceStep) :
    (v.map f).within step = (v.within step).map f := by
  cases v <;> rfl

inductive Decided : Verdict α → Prop
  | passed (a : α) : Decided (.passed a)
  | rejected (k : ProblemKind) : Decided (Check.reject k)

theorem Decided.map {v : Verdict α} (h : v.Decided) (f : α → β) : (v.map f).Decided := by
  cases h with
  | passed a => exact .passed (f a)
  | rejected k => exact .rejected k

end Verdict

namespace Check

open Verdict (Decided)

variable {v : Value} {t : Text} {ms : Members Value}

theorem text_of_string (h : string v = .passed t) : v = .text t := by
  cases v <;> simp_all [string, reject]

/-- A string that may not be empty is passed if it has characters, and characters alone. -/
theorem nonEmptyString_eq_passed :
    nonEmptyString v = .passed t ↔ v = .text t ∧ ∃ cs, cs ≠ [] ∧ t = .ofChars cs := by
  cases v with
  | text u =>
    rw [nonEmptyString, Value.text.injEq]
    cases hcs : u.toChars? with
    | none =>
      refine iff_of_false (fun h => by cases h) ?_
      rintro ⟨rfl, cs, -, hu⟩
      rw [Text.toChars?_eq_some.mpr hu] at hcs
      cases hcs
    | some cs =>
      obtain rfl := Text.toChars?_eq_some.mp hcs
      cases cs with
      | nil =>
        refine iff_of_false (fun h => by cases h) ?_
        rintro ⟨rfl, cs, hcs, hu⟩
        exact hcs (Text.ofChars_inj.mp hu).symm
      | cons c cs =>
        refine ⟨fun h => ?_, fun h => congrArg Verdict.passed h.1⟩
        cases h
        exact ⟨rfl, c :: cs, List.cons_ne_nil c cs, rfl⟩
  | _ => exact iff_of_false (fun h => by cases h) fun h => by cases h.1

theorem text_of_nonEmptyString (h : nonEmptyString v = .passed t) : v = .text t :=
  (nonEmptyString_eq_passed.mp h).1

/-- A field that was passed is a member that was, or its default. -/
theorem field_eq_passed {α : Type} {c : Check α} {name : String} {default a : α}
    (h : field ms name default c = .passed a) :
    a = default ∨ ∃ w, ms.get? (text name) = some w ∧ c w = .passed a := by
  unfold field at h
  split at h
  next w hw => exact .inr ⟨w, hw, Verdict.within_eq_passed.mp h⟩
  next =>
    cases h
    exact .inl rfl

/-- A field that is missing is checked as its default, if this passes as what it stands for. -/
theorem field_eq {α : Type} {c : Check α} {a : α} {d : Value} (hd : c d = .passed a)
    (ms : Members Value) (name : String) :
    field ms name a c = (c ((ms.get? (text name)).getD d)).within (.member (text name)) := by
  unfold field
  split
  next w hw => rw [hw]; rfl
  next hw => rw [hw, Option.getD_none, hd]; rfl

theorem itemsFrom_cons {α : Type} (c : Check α) (i : Nat) (v : Value) (vs : List Value) :
    itemsFrom c i (v :: vs) =
      (((c v).within (.item i)).map List.cons).ap (itemsFrom c (i + 1) vs) := rfl

theorem membersOf_cons {α : Type} (c : Check α) (k : Text) (v : Value) (ms : Members Value) :
    membersOf c ((k, v) :: ms) =
      (((c v).within (.member k)).map fun a => List.cons (k, a)).ap (membersOf c ms) := rfl

theorem nullable_of_ne {α : Type} {c : Check α} (hv : v ≠ .null) :
    nullable c v = (c v).map some := by
  cases v with
  | null => exact absurd rfl hv
  | _ => rfl

theorem object_eq_passed {α : Type} {c : Members Value → Verdict α} {a : α}
    (h : object c v = .passed a) : ∃ ms, v = .object ms ∧ c ms = .passed a := by
  unfold object at h
  split at h
  · exact ⟨_, rfl, h⟩
  · cases h

theorem string_decided (v : Value) : (string v).Decided := by
  cases v with
  | text t => exact .passed t
  | _ => exact .rejected _

theorem nonEmptyString_decided (v : Value) : (nonEmptyString v).Decided := by
  cases v with
  | text t =>
    rw [nonEmptyString]
    split
    · exact .rejected _
    · exact .rejected _
    · exact .passed t
  | _ => exact .rejected _

theorem booleanOfInt_decided (n : Int) : (booleanOfInt n).Decided := by
  unfold booleanOfInt
  split
  · exact .passed false
  split
  · exact .passed true
  · exact .rejected _

theorem boolean_decided (v : Value) : (boolean v).Decided := by
  cases v with
  | boolean b => exact .passed b
  | integer n =>
    rw [boolean]
    split
    · exact booleanOfInt_decided n
    · exact .rejected _
  | real x =>
    rw [boolean]
    split
    · exact booleanOfInt_decided _
    · exact .rejected _
  | text t =>
    rw [boolean]
    split
    · exact .rejected _
    · split
      · exact .passed _
      · exact .rejected _
  | _ => exact .rejected _

theorem decimalDigit_of_groupedDigits? {cs ds : List Char} (h : groupedDigits? cs = some ds) :
    ∀ d ∈ ds, decimalDigit d = true := by
  fun_induction groupedDigits? cs generalizing ds with
  | case1 => cases h
  | case2 c hc =>
    cases h
    simpa using hc
  | case3 => cases h
  | case4 c r hc ih =>
    obtain ⟨rest, hrest, rfl⟩ := Option.map_eq_some_iff.mp h
    exact List.forall_mem_cons.mpr ⟨hc, ih hrest⟩
  | case5 => cases h
  | case6 c r _ _ hc ih =>
    obtain ⟨rest, hrest, rfl⟩ := Option.map_eq_some_iff.mp h
    exact List.forall_mem_cons.mpr ⟨hc, ih hrest⟩
  | case7 => cases h

theorem digits_of_integerOfText {n : Int} (h : integerOfText t = .ok n) :
    (natDigits n.natAbs).length ≤ 4300 := by
  unfold integerOfText at h
  split at h
  · cases h
  next cs _ =>
    dsimp only at h
    split at h
    · cases h
    next ds hds =>
      obtain ⟨before, -, hdigits⟩ := Option.bind_eq_some_iff.mp hds
      split at h
      · cases h
      next hlimit =>
        cases h
        have habs (minus : Bool) : (if minus = true then -(natOfDigits ds : Int)
            else natOfDigits ds).natAbs = natOfDigits (ds.dropWhile (· == '0')) := by
          rw [natOfDigits_dropWhile]
          cases minus <;> simp
        rw [habs]
        refine natDigits_natOfDigits_length (fun d hd => ?_) (by decide) (Nat.not_lt.mp hlimit)
        exact decimalDigit_of_groupedDigits? hdigits d ((List.dropWhile_sublist _).subset hd)

theorem digits_of_integerOfReal {x : Binary64} {n : Int} (h : integerOfReal x = .ok n) :
    (natDigits n.natAbs).length ≤ 19 := by
  have hbound : wordBound < 10 ^ 19 := by decide
  unfold integerOfReal at h
  split at h
  · split at h
    · cases h
    · split at h
      next hn =>
        cases h
        exact natDigits_length_le (by decide) (Nat.lt_trans hn hbound)
      next => cases h
  · cases h

theorem ofExcept_eq_passed {α : Type} {x : Except ProblemKind α} {a : α} :
    ofExcept x = .passed a ↔ x = .ok a := by
  cases x <;> simp [ofExcept, reject]

/-- An integer that was made of a value of another kind has no more digits than are read. -/
theorem digits_of_integer {n : Int} (h : integer v = .passed n) :
    v = .integer n ∨ (natDigits n.natAbs).length ≤ 4300 := by
  cases v with
  | integer m =>
    cases h
    exact .inl rfl
  | boolean b =>
    cases h
    cases b <;> exact .inr (by decide)
  | real x =>
    have hdigits := digits_of_integerOfReal (ofExcept_eq_passed.mp h)
    exact .inr (Nat.le_trans hdigits (by decide))
  | text t => exact .inr (digits_of_integerOfText (ofExcept_eq_passed.mp h))
  | _ => cases h

def Reads {α : Type} (c : Check α) (f : α → Value) : Prop := ∀ a, c (f a) = .passed a

namespace Reads

variable {α : Type} {c : Check α} {f : α → Value}

theorem string : Reads Check.string .text := fun _ => rfl

theorem integer : Reads Check.integer .integer := fun _ => rfl

theorem boolean : Reads Check.boolean .boolean := fun _ => rfl

theorem any : Reads Check.any fun v => v := fun _ => rfl

theorem itemsFrom (h : Reads c f) (i : Nat) (as : List α) :
    Check.itemsFrom c i (as.map f) = .passed as := by
  induction as generalizing i with
  | nil => rfl
  | cons a as ih =>
    rw [List.map_cons, itemsFrom_cons, h a, ih (i + 1)]
    rfl

theorem list (h : Reads c f) : Reads (Check.list c) fun as => .list (as.map f) :=
  h.itemsFrom 0

theorem map (h : Reads c f) :
    Reads (Check.map c) fun ms => .object (ms.map fun m => (m.1, f m.2)) := by
  intro ms
  rw [Check.map]
  induction ms with
  | nil => rfl
  | cons m ms ih =>
    rw [List.map_cons, membersOf_cons, h m.2, ih]
    rfl

/-- Members of any kind are passed as they are. -/
theorem object : Reads (Check.map Check.any) .object := by
  intro ms
  have hms : ms.map (fun m => (m.1, m.2)) = ms := List.map_id ms
  have hread : Check.map Check.any (.object (ms.map fun m => (m.1, m.2))) = .passed ms :=
    any.map ms
  rwa [hms] at hread

/-- A field that is spelled out. -/
theorem field (h : Reads c f) {ms : List (String × Value)} {name : String} {a b : α}
    (hb : ms.lookup name = some (f b)) :
    Check.field (ms.map fun (k, v) => (text k, v)) name a c = .passed b := by
  rw [Check.field, Members.get?_map_text, hb]
  simp only [h b, Verdict.within]

end Reads

end Check

end Terraload
