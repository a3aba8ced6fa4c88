import Terraload.Proofs.Members
import Terraload.Proofs.Validation
/-!
What checks ask of values, and what does not count for them: members that are no fields of a record,
and whether a field that has its default is spelled out. A value that is told otherwise in these
ways meets the same verdict, down to each problem that is found in it.
-/
namespace Terraload

/-- The parts of a value that a check tells apart. The fields of a record have a default each. -/
inductive Schema
  | plain
  | nullable (s : Schema)
  | list (s : Schema)
  | map (s : Schema)
  | record (fields : List (String × Value × Schema))

namespace Schema

def item : Schema → Schema
  | .list s => s
  | _ => .plain

/-- What a member of an object is checked for, and the default that it has as a field; none if it is
not asked for. -/
def member? : Schema → Text → Option (Option Value × Schema)
  | .map s, _ => some (none, s)
  | .record fields, name => (fields.find? fun f => text f.1 == name).map fun f => (some f.2.1, f.2.2)
  | _, _ => some (none, .plain)

def part (s : Schema) (name : Text) : Schema := ((s.member? name).map (·.2)).getD .plain

end Schema

/-- A way of telling a value otherwise: members that are not asked for come and go, or fields that
have their default are left out. -/
inductive Liberty
  | others
  | defaults

mutual

inductive Retells (l : Liberty) : Schema → Value → Value → Prop
  | same (s : Schema) (v : Value) : Retells l s v v
  | nullable {s : Schema} {v w : Value} (h : Retells l s v w) : Retells l (.nullable s) v w
  | list {s : Schema} {vs ws : List Value} (h : RetellsItems l s vs ws) :
      Retells l (.list s) (.list vs) (.list ws)
  | map {s : Schema} {ms ns : Members Value} (h : RetellsMembers l (.map s) ms ns) :
      Retells l (.map s) (.object ms) (.object ns)
  | record {fields : List (String × Value × Schema)} {ms ns : Members Value}
      (h : RetellsMembers l (.record fields) ms ns) :
      Retells l (.record fields) (.object ms) (.object ns)

inductive RetellsItems (l : Liberty) : Schema → List Value → List Value → Prop
  | nil {s : Schema} : RetellsItems l s [] []
  | cons {s : Schema} {v w : Value} {vs ws : List Value} (h : Retells l s v w)
      (hrest : RetellsItems l s vs ws) : RetellsItems l s (v :: vs) (w :: ws)

inductive RetellsMembers (l : Liberty) : Schema → Members Value → Members Value → Prop
  | nil {s : Schema} : RetellsMembers l s [] []
  | kept {s t : Schema} {k : Text} {d : Option Value} {v w : Value} {ms ns : Members Value}
      (hk : s.member? k = some (d, t)) (h : Retells l t v w) (hrest : RetellsMembers l s ms ns) :
      RetellsMembers l s ((k, v) :: ms) ((k, w) :: ns)
  | removed {s : Schema} {k : Text} {v : Value} {ms ns : Members Value} (hl : l = .others)
      (hk : s.member? k = none) (hrest : RetellsMembers l s ms ns) :
      RetellsMembers l s ((k, v) :: ms) ns
  | added {s : Schema} {k : Text} {w : Value} {ms ns : Members Value} (hl : l = .others)
      (hk : s.member? k = none) (hrest : RetellsMembers l s ms ns) :
      RetellsMembers l s ms ((k, w) :: ns)
  /-- No later member of the name may be left, which there is none of where names are different. -/
  | omitted {s t : Schema} {k : Text} {v : Value} {ms ns : Members Value} (hl : l = .defaults)
      (hk : s.member? k = some (some v, t)) (hnone : k ∉ ns.names)
      (hrest : RetellsMembers l s ms ns) : RetellsMembers l s ((k, v) :: ms) ns

end

variable {α : Type} {l : Liberty} {s t : Schema} {v w d : Value} {k : Text} {c : Check α} {a : α}
  {vs ws : List Value} {ms ns : Members Value}

/-- Where nothing is told apart, nothing is told otherwise. -/
theorem Retells.eq_of_plain (h : Retells l .plain v w) : v = w := by
  cases h
  rfl

theorem RetellsItems.eq_of_plain : ∀ {vs ws : List Value}, RetellsItems l .plain vs ws → vs = ws
  | _, _, .nil => rfl
  | _, _, .cons h hrest => by rw [h.eq_of_plain, hrest.eq_of_plain]

theorem RetellsMembers.eq_of_plain (hs : ∀ k, s.member? k = some (none, .plain)) :
    ∀ {ms ns : Members Value}, RetellsMembers l s ms ns → ms = ns
  | _, _, .nil => rfl
  | _, _, .kept hk h hrest => by
    cases (hs _).symm.trans hk
    rw [h.eq_of_plain, hrest.eq_of_plain hs]
  | _, _, .removed _ hk _ => by cases (hs _).symm.trans hk
  | _, _, .added _ hk _ => by cases (hs _).symm.trans hk
  | _, _, .omitted _ hk _ _ => by cases (hs _).symm.trans hk

theorem Retells.of_items (h : RetellsItems l s.item vs ws) : Retells l s (.list vs) (.list ws) := by
  cases s with
  | list s => exact .list h
  | plain | nullable | map | record => exact h.eq_of_plain ▸ .same _ _

theorem Retells.of_members (h : RetellsMembers l s ms ns) :
    Retells l s (.object ms) (.object ns) := by
  cases s with
  | map s => exact .map h
  | record fields => exact .record h
  | plain | nullable | list => exact h.eq_of_plain (fun _ => rfl) ▸ .same _ _

theorem Retells.null_iff : ∀ {s : Schema} {v w : Value}, Retells l s v w → (v = .null ↔ w = .null)
  | _, _, _, .same _ _ => Iff.rfl
  | _, _, _, .nullable h => h.null_iff
  | _, _, _, .list _ => by simp
  | _, _, _, .map _ => by simp
  | _, _, _, .record _ => by simp

theorem ne_of_unasked {j : Text} {asked : Option Value × Schema} (hk : s.member? k = some asked)
    (hj : s.member? j = none) : k ≠ j := by
  rintro rfl
  cases hk.symm.trans hj

/-- A field says the same in both, where a field that is missing says its default. -/
theorem RetellsMembers.get? (hk : s.member? k = some (some d, t)) :
    ∀ {ms ns : Members Value}, RetellsMembers l s ms ns →
      Retells l t ((ms.get? k).getD d) ((ns.get? k).getD d)
  | _, _, .nil => .same t d
  | _, _, .kept (k := j) hj h hrest => by
    rw [Members.get?_cons, Members.get?_cons]
    by_cases heq : k = j
    · subst heq
      cases hk.symm.trans hj
      rw [if_pos rfl, if_pos rfl]
      exact h
    · rw [if_neg heq, if_neg heq]
      exact hrest.get? hk
  | _, _, .removed hl hj hrest => by
    rw [Members.get?_cons, if_neg (ne_of_unasked hk hj)]
    exact hrest.get? hk
  | _, _, .added hl hj hrest => by
    rw [Members.get?_cons, if_neg (ne_of_unasked hk hj)]
    exact hrest.get? hk
  | _, ns, .omitted (k := j) hl hj hnone hrest => by
    rw [Members.get?_cons]
    by_cases heq : k = j
    · subst heq
      cases hk.symm.trans hj
      rw [if_pos rfl, (Members.get?_eq_none_iff k ns).mpr hnone]
      exact .same t d
    · rw [if_neg heq]
      exact hrest.get? hk

namespace RetellsMembers

theorem put_asked {o : Option Value} (hk : s.member? k = some (o, t)) (h : Retells .others t v w) :
    ∀ {ms ns : Members Value}, RetellsMembers .others s ms ns →
      RetellsMembers .others s (ms.put k v) (ns.put k w)
  | _, _, .nil => .kept hk h .nil
  | _, _, .kept (k := j) hj hv hrest => by
    by_cases heq : j = k
    · subst heq
      rw [Members.put_cons_self, Members.put_cons_self]
      exact .kept hk h hrest
    · rw [Members.put_cons_of_ne heq, Members.put_cons_of_ne heq]
      exact .kept hj hv (hrest.put_asked hk h)
  | _, _, .removed hl hj hrest => by
    rw [Members.put_cons_of_ne (ne_of_unasked hk hj).symm]
    exact .removed hl hj (hrest.put_asked hk h)
  | _, _, .added hl hj hrest => by
    rw [Members.put_cons_of_ne (ne_of_unasked hk hj).symm _ _]
    exact .added hl hj (hrest.put_asked hk h)

theorem put_left (hk : s.member? k = none) (v : Value) :
    ∀ {ms ns : Members Value}, RetellsMembers .others s ms ns →
      RetellsMembers .others s (ms.put k v) ns
  | _, _, .nil => .removed rfl hk .nil
  | _, _, .kept hj hv hrest => by
    rw [Members.put_cons_of_ne (ne_of_unasked hj hk)]
    exact .kept hj hv (hrest.put_left hk v)
  | _, _, .removed (k := j) hl hj hrest => by
    by_cases heq : j = k
    · subst heq
      rw [Members.put_cons_self]
      exact .removed hl hk hrest
    · rw [Members.put_cons_of_ne heq]
      exact .removed hl hj (hrest.put_left hk v)
  | _, _, .added hl hj hrest => .added hl hj (hrest.put_left hk v)

theorem put_right (hk : s.member? k = none) (w : Value) :
    ∀ {ms ns : Members Value}, RetellsMembers .others s ms ns →
      RetellsMembers .others s ms (ns.put k w)
  | _, _, .nil => .added rfl hk .nil
  | _, _, .kept hj hv hrest => by
    rw [Members.put_cons_of_ne (ne_of_unasked hj hk)]
    exact .kept hj hv (hrest.put_right hk w)
  | _, _, .removed hl hj hrest => .removed hl hj (hrest.put_right hk w)
  | _, _, .added (k := j) hl hj hrest => by
    by_cases heq : j = k
    · subst heq
      rw [Members.put_cons_self]
      exact .added hl hk hrest
    · rw [Members.put_cons_of_ne heq]
      exact .added hl hj (hrest.put_right hk w)

/-- The same member put on both sides, its value told otherwise. -/
theorem put (h : RetellsMembers .others s ms ns) (hv : Retells .others (s.part k) v w) :
    RetellsMembers .others s (ms.put k v) (ns.put k w) := by
  rw [Schema.part] at hv
  cases hk : s.member? k with
  | none => exact (h.put_left hk v).put_right hk w
  | some o =>
    rw [hk] at hv
    exact h.put_asked hk hv

/-- Members put on one side only, where none of them is asked for. -/
theorem putAll_right {more : List (Text × Value)} (h : RetellsMembers .others s ms ns)
    (hmore : ∀ m ∈ more, s.member? m.1 = none) :
    RetellsMembers .others s ms (ns.putAll more) := by
  induction more generalizing ns with
  | nil => exact h
  | cons m more ih =>
    obtain ⟨hm, hmore⟩ := List.forall_mem_cons.mp hmore
    exact ih (h.put_right hm m.2) hmore

end RetellsMembers

def Respects (s : Schema) (c : Check α) : Prop :=
  ∀ {l : Liberty} {v w : Value}, Retells l s v w → c v = c w

namespace Respects

theorem plain (c : Check α) : Respects .plain c := fun h => congrArg c h.eq_of_plain

theorem nullable (hc : Respects s c) : Respects (.nullable s) (Check.nullable c) := by
  intro l v w h
  cases h with
  | same => rfl
  | nullable h =>
    by_cases hv : v = .null
    · rw [hv, h.null_iff.mp hv]
    · rw [Check.nullable_of_ne hv, Check.nullable_of_ne (h.null_iff.not.mp hv), hc h]

theorem itemsFrom (hc : Respects s c) : ∀ {vs ws : List Value}, RetellsItems l s vs ws →
    ∀ i, Check.itemsFrom c i vs = Check.itemsFrom c i ws
  | _, _, .nil, _ => rfl
  | _, _, .cons h hrest, i => by
    rw [Check.itemsFrom_cons, Check.itemsFrom_cons, hc h, hc.itemsFrom hrest]

theorem list (hc : Respects s c) : Respects (.list s) (Check.list c) := by
  intro l v w h
  cases h with
  | same => rfl
  | list h => exact hc.itemsFrom h 0

theorem membersOf (hc : Respects s c) : ∀ {ms ns : Members Value}, RetellsMembers l (.map s) ms ns →
    Check.membersOf c ms = Check.membersOf c ns
  | _, _, .nil => rfl
  | _, _, .kept hk h hrest => by
    cases hk
    rw [Check.membersOf_cons, Check.membersOf_cons, hc h, hc.membersOf hrest]
  | _, _, .removed _ hk _ => by cases hk
  | _, _, .added _ hk _ => by cases hk
  | _, _, .omitted _ hk _ _ => by cases hk

theorem map (hc : Respects s c) : Respects (.map s) (Check.map c) := by
  intro l v w h
  cases h with
  | same => rfl
  | map h => exact hc.membersOf h

theorem record {fields : List (String × Value × Schema)} {c : Members Value → Verdict α}
    (hc : ∀ {l : Liberty} {ms ns : Members Value}, RetellsMembers l (.record fields) ms ns →
      c ms = c ns) : Respects (.record fields) (Check.object c) := by
  intro l v w h
  cases h with
  | same => rfl
  | record h => exact hc h

end Respects

/-- A field of a record is checked alike in both, as its default is one that passes. -/
theorem RetellsMembers.field {ms ns : Members Value} (h : RetellsMembers l s ms ns) (name : String)
    (a : α) (c : Check α) (hname : s.member? (text name) = some (some d, t)) (hd : c d = .passed a)
    (hc : Respects t c) : Check.field ms name a c = Check.field ns name a c := by
  rw [Check.field_eq hd, Check.field_eq hd, hc (h.get? hname)]

end Terraload
