import Terraload.Proofs.FileSystem.Cleaning
import Terraload.Proofs.FileSystem.Links
/-!
A path in which two dots are carried out by the text alone. It leads where the path itself leads,
unless two dots take back a name that is a link: on the way they go up from where the link leads.
-/
namespace Terraload

open Terraload.Path

variable {fs : FileSystem} {rooted : Bool} {limit : Nat} {here : Place} {c d n p : Text}
  {front ns rest stack : List Text} {r : Place × Node}

namespace Path

theorem push_sublist (rooted : Bool) (stack : List Text) (c : Text) :
    (push rooted stack c).reverse.Sublist (stack.reverse ++ [c]) := by
  by_cases hup : c = dotdot
  · subst hup
    cases stack with
    | nil =>
      cases rooted with
      | true => exact List.nil_sublist _
      | false => exact .refl _
    | cons n below =>
      by_cases hn : n = dotdot
      · simp [push, hn]
      · have hpush : push rooted (n :: below) dotdot = below := by simp [push, hn]
        rw [hpush, List.reverse_cons, List.append_assoc]
        exact List.sublist_append_left _ _
  · rw [push_name hup, List.reverse_cons]

theorem foldl_push_sublist (rooted : Bool) (stack ns : List Text) :
    (ns.foldl (push rooted) stack).reverse.Sublist (stack.reverse ++ ns) := by
  induction ns generalizing stack with
  | nil => simp
  | cons n ns ih =>
    have hpush := (push_sublist rooted stack n).append_right ns
    rw [List.append_assoc, List.singleton_append] at hpush
    exact (ih _).trans hpush

theorem reduced_sublist (p : Text) : (reduced p).Sublist (names p) :=
  foldl_push_sublist (!(root p).isEmpty) [] (names p)

theorem reduced_said (p : Text) : ∀ n ∈ reduced p, n ≠ [] ∧ slash ∉ n := fun n hn =>
  names_said p n (mem_reduced hn)

/-- Of a row of names those are left that are pushed one after another. -/
theorem reduced_ofParts (hns : ∀ n ∈ ns, n ∈ names p) :
    reduced (ofParts ns) = (ns.foldl (push false) []).reverse := by
  have hsaid (n : Text) (hn : n ∈ ns) := names_said p n (hns n hn)
  rw [reduced, root_of_relative (relative_row hsaid),
    names_ofParts (fun n hn => (mem_names.mp (hns n hn)).2) fun n hn => (hsaid n hn).2]
  rfl

theorem normalize_of_empty (h : Relative p) (hnil : reduced p = []) : normalize p = dot :=
  normalize_of_nil (by rw [root_of_relative h, hnil]; rfl)

theorem normalize_of_reduced (h : Relative p) (hne : reduced p ≠ []) :
    normalize p = ofParts (reduced p) := by
  have hrow := row_ne_nil hne (reduced_said p)
  rw [normalize_of_ne (by rwa [root_of_relative h]), root_of_relative h, List.nil_append]

theorem names_normalize (h : Relative p) : names (normalize p) = reduced p := by
  by_cases hne : reduced p = []
  · rw [normalize_of_empty h hne, hne]
    decide
  · rw [normalize_of_reduced h hne]
    exact names_ofParts (fun n hn => (mem_names.mp (mem_reduced hn)).2)
      fun n hn => (reduced_said p n hn).2

/-- A normalized path is a row of names, or a dot. -/
theorem exists_row (h : Relative p) :
    ∃ ns, ns ≠ [] ∧ (∀ n ∈ ns, n ≠ [] ∧ slash ∉ n) ∧ normalize p = ofParts ns := by
  by_cases hne : reduced p = []
  · refine ⟨[dot], List.cons_ne_nil _ _, List.forall_mem_singleton.mpr (by decide), ?_⟩
    rw [normalize_of_empty h hne]
    rfl
  · exact ⟨reduced p, hne, reduced_said p, normalize_of_reduced h hne⟩

theorem row_sublist_clean (h : Relative p) (hne : ns ≠ []) (hsub : ns.Sublist (names p)) :
    (ofParts ns).Sublist (clean p) := by
  have hnames : names p ≠ [] := fun hnil => hne (List.sublist_nil.mp (hnil ▸ hsub))
  rw [clean_of_names h hnames]
  exact ofParts_sublist hsub

end Path

namespace FileSystem

/-- A row of names of a path, to which its own limits apply. -/
theorem locate_row {follow : Bool} (hrel : Relative p) (hne : ns ≠ []) (hsub : ns.Sublist (names p))
    (hnul : nulMark ∉ clean p) (hshort : Short (clean p)) :
    fs.locate follow (ofParts ns) = .ok r ↔ Walked fs follow linkLimit fs.current ns r := by
  have hsaid (n : Text) (hn : n ∈ ns) := names_said p n (hsub.mem hn)
  have hclean := row_sublist_clean hrel hne hsub
  rw [locate_eq_ok, startOf_of_relative (relative_row hsaid), pathSteps_row hne hsaid]
  exact ⟨fun h => h.2.2.2, fun h => ⟨row_ne_nil hne hsaid, fun hmem => hnul (hclean.mem hmem),
    hshort.of_sublist hclean, h⟩⟩

def TakesBackNoLink (fs : FileSystem) (d : Text) : Prop :=
  ∀ front back, names d = front ++ dotdot :: back →
    ∀ q t, fs.locate false (normalize (ofParts front)) ≠ .ok (q, .link t)

/-- One more name: it is gone along, or two dots lead back to where the name in front of them was
met. -/
theorem Walked.push (hs : ∀ n ∈ stack, n ≠ dot)
    (hlink : c = dotdot → ∀ q t, ¬ Walked fs false limit here stack.reverse (q, .link t))
    (h : Walked fs true limit here (stack.reverse ++ c :: rest) r) :
    Walked fs true limit here ((Path.push false stack c).reverse ++ rest) r := by
  have hkeep : Walked fs true limit here ((c :: stack).reverse ++ rest) r := by
    rwa [List.reverse_cons, List.append_assoc]
  by_cases hup : c = dotdot
  · subst hup
    cases stack with
    | nil => exact hkeep
    | cons n below =>
      by_cases hn : n = dotdot
      · have hpush : Path.push false (n :: below) dotdot = dotdot :: n :: below := by
          simp [Path.push, hn]
        rwa [hpush]
      · have hpush : Path.push false (n :: below) dotdot = below := by simp [Path.push, hn]
        rw [hpush]
        rw [List.reverse_cons, List.append_assoc] at h
        obtain ⟨q, left, -, -, hback, hresume⟩ := exists_parts h (List.cons_ne_nil _ _)
        cases hback with
        | stay => exact absurd rfl (hs dot List.mem_cons_self)
        | up => exact absurd rfl hn
        | down _ _ hback =>
          cases hback with
          | up hback =>
            rw [List.dropLast_concat] at hback
            exact hresume (.inr rfl) hback
          | down hc => exact absurd rfl hc.ne_dotdot
          | file hc => exact absurd rfl hc.ne_dotdot
          | followed hc => exact absurd rfl hc.ne_dotdot
        | followed hc hnode =>
          have hfound := hresume (.inl (List.cons_ne_nil n [])) (.link hc hnode)
          rw [← List.reverse_cons] at hfound
          exact absurd hfound (hlink rfl _ _)
  · rwa [push_name hup]

/-- The names of a path are pushed one after another. What is left of those in `front` and the rest
lead all the while to where the path leads. -/
theorem walked_reduced (front : List Text) (hrel : Relative d) (hnul : nulMark ∉ clean d)
    (hshort : Short (clean d)) (hback : fs.TakesBackNoLink d) (hnames : names d = front ++ rest)
    (h : Walked fs true linkLimit fs.current
      ((front.foldl (Path.push false) []).reverse ++ rest) r) :
    Walked fs true linkLimit fs.current (reduced d) r := by
  induction rest generalizing front with
  | nil =>
    rw [List.append_nil] at h hnames
    rwa [reduced, root_of_relative hrel, hnames]
  | cons c rest ih =>
    refine ih (front ++ [c]) (by rw [hnames]; simp) ?_
    rw [List.foldl_append]
    have hsub : (front.foldl (Path.push false) []).reverse.Sublist (names d) := by
      have hfront := foldl_push_sublist false [] front
      rw [hnames]
      exact hfront.trans (List.sublist_append_left _ _)
    refine Walked.push (fun n hn => ?_) ?_ h
    · exact (mem_names.mp (hsub.mem (List.mem_reverse.mpr hn))).2.2
    · rintro rfl q t hlink
      -- What is taken back is a link that the cleaned names in front lead to.
      have hne : (front.foldl (Path.push false) []).reverse ≠ [] := fun hnil => by
        rw [hnil] at hlink
        cases hlink
      have hreduced : reduced (ofParts front) = (front.foldl (Path.push false) []).reverse :=
        reduced_ofParts fun n hn => by rw [hnames]; exact List.mem_append_left _ hn
      refine hback front rest hnames q t ?_
      rw [normalize_of_reduced, hreduced, locate_row hrel hne hsub hnul hshort]
      · exact hlink
      · exact relative_row fun n hn =>
          names_said d n (by rw [hnames]; exact List.mem_append_left _ hn)
      · rwa [hreduced]

/-- What a path leads to, its normalized form leads to, if it takes back no link. -/
theorem locate_normalize (hrel : Relative d) (hback : fs.TakesBackNoLink d)
    (h : fs.locate true (clean d) = .ok r) : fs.locate true (normalize d) = .ok r := by
  have hwalked := walked_of_locate (relative_clean hrel) h
  rw [names_clean hrel] at hwalked
  obtain ⟨-, hnul, hshort⟩ := short_of_locate h
  have hreduced := walked_reduced [] hrel hnul hshort hback rfl hwalked
  by_cases hne : reduced d = []
  · rw [hne] at hreduced
    rw [normalize_of_empty hrel hne, locate_eq_ok]
    exact ⟨by decide, by decide, by decide, .stay hreduced⟩
  · rw [normalize_of_reduced hrel hne, locate_row hrel hne (reduced_sublist d) hnul hshort]
    exact hreduced

end FileSystem

end Terraload
