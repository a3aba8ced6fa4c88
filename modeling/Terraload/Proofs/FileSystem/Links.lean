import Terraload.Proofs.FileSystem.Descent
/-!
Walks over links, as a relation with a rule for each kind of step. Where steps lead on behind others,
the ones in front lead to a directory, and the links they were led over count for all that follow.
-/
namespace Terraload

open Terraload.Path

namespace FileSystem

variable {fs : FileSystem} {follow : Bool} {limit more : Nat} {here q : Place} {c d n p : Text}
  {steps xs ys : List Text} {r : Place × Node}

structure StepDown (c : Text) : Prop where
  ne_dot : c ≠ dot
  ne_dotdot : c ≠ dotdot
  short : ShortName c

/-- Steps lead from a directory to a place, over a limited number of links. A link at the end is
followed only if `follow` holds. -/
inductive Walked (fs : FileSystem) :
    Bool → Nat → Place → List Text → Place × Node → Prop
  | done {follow : Bool} {limit : Nat} {here : Place} :
      Walked fs follow limit here [] (here, .directory)
  | stay {follow : Bool} {limit : Nat} {here : Place} {steps : List Text} {r : Place × Node}
      (h : Walked fs follow limit here steps r) : Walked fs follow limit here (dot :: steps) r
  | up {follow : Bool} {limit : Nat} {here : Place} {steps : List Text} {r : Place × Node}
      (h : Walked fs follow limit here.dropLast steps r) :
      Walked fs follow limit here (dotdot :: steps) r
  | down {follow : Bool} {limit : Nat} {here : Place} {c : Text} {steps : List Text}
      {r : Place × Node} (hc : StepDown c) (hnode : fs.node? (here ++ [c]) = some .directory)
      (h : Walked fs follow limit (here ++ [c]) steps r) : Walked fs follow limit here (c :: steps) r
  | file {follow : Bool} {limit : Nat} {here : Place} {c : Text} {bytes : Bytes} (hc : StepDown c)
      (hnode : fs.node? (here ++ [c]) = some (.file bytes)) :
      Walked fs follow limit here [c] (here ++ [c], .file bytes)
  | link {limit : Nat} {here : Place} {c t : Text} (hc : StepDown c)
      (hnode : fs.node? (here ++ [c]) = some (.link t)) :
      Walked fs false limit here [c] (here ++ [c], .link t)
  | followed {follow : Bool} {limit : Nat} {here : Place} {c t : Text} {steps : List Text}
      {r : Place × Node} (hc : StepDown c) (hnode : fs.node? (here ++ [c]) = some (.link t))
      (ht : Short t) (hgo : steps ≠ [] ∨ follow = true)
      (h : Walked fs follow limit (startOf here t) (pathSteps t ++ steps) r) :
      Walked fs follow (limit + 1) here (c :: steps) r

def jump (fs : FileSystem) (follow : Bool) :
    Nat → Place → List Text → Except PathError (Place × Node)
  | 0 => fun _ _ => .error .tooManyLinks
  | limit + 1 => fs.walk follow limit

theorem jump_succ : fs.jump follow (limit + 1) = fs.walk follow limit := rfl

theorem walk_eq_walkWith :
    fs.walk follow limit here steps = walkWith fs follow (fs.jump follow limit) here steps := by
  cases limit <;> rfl

theorem walked_of_walkWith
    (hjump : ∀ {here t steps r}, Short t → fs.jump follow limit here (pathSteps t ++ steps) = .ok r →
      ∃ k, limit = k + 1 ∧ Walked fs follow k here (pathSteps t ++ steps) r)
    (h : walkWith fs follow (fs.jump follow limit) here steps = .ok r) :
    Walked fs follow limit here steps r := by
  induction steps generalizing here with
  | nil =>
    cases h
    exact .done
  | cons c steps ih =>
    by_cases hdot : c = dot
    · subst hdot
      exact .stay (ih h)
    by_cases hdotdot : c = dotdot
    · subst hdotdot
      exact .up (@ih here.dropLast h)
    rw [walkWith_name hdot hdotdot] at h
    split at h
    · cases h
    next hshort =>
      have hc : StepDown c := ⟨hdot, hdotdot, Nat.le_of_not_lt hshort⟩
      split at h
      · cases h
      next hnode => exact .down hc hnode (ih h)
      next b hnode =>
        split at h
        next hempty =>
          cases h
          rw [List.isEmpty_iff.mp hempty]
          exact .file hc hnode
        · cases h
      next t hnode =>
        split at h
        next hend =>
          rw [Bool.and_eq_true, Bool.not_eq_true'] at hend
          cases h
          rw [List.isEmpty_iff.mp hend.1, hend.2]
          exact .link hc hnode
        next hend =>
          split at h
          · cases h
          next ht =>
            have ht : Short t := Nat.le_of_not_lt ht
            obtain ⟨k, rfl, hwalked⟩ := hjump ht h
            refine .followed hc hnode ht ?_ hwalked
            by_cases hsteps : steps = []
            · right
              simpa [hsteps] using hend
            · exact .inl hsteps

theorem walked_of_walk (h : fs.walk follow limit here steps = .ok r) :
    Walked fs follow limit here steps r := by
  induction limit generalizing here steps r with
  | zero =>
    rw [walk_eq_walkWith] at h
    exact walked_of_walkWith (fun _ h => by cases h) h
  | succ limit ih =>
    rw [walk_eq_walkWith] at h
    exact walked_of_walkWith (fun _ h => ⟨limit, rfl, ih (by rwa [jump_succ] at h)⟩) h

theorem walk_down (hc : StepDown c) : fs.walk follow limit here (c :: steps) =
    match fs.node? (here ++ [c]) with
    | none => .error .absent
    | some .directory => fs.walk follow limit (here ++ [c]) steps
    | some (.file b) => if steps.isEmpty then .ok (here ++ [c], .file b) else .error .notDirectory
    | some (.link t) =>
      if steps.isEmpty && !follow then .ok (here ++ [c], .link t)
      else if pathLimit < (Encoding.encode t).length then .error .tooLong
      else fs.jump follow limit (startOf here t) (pathSteps t ++ steps) := by
  rw [walk_eq_walkWith, walkWith_name hc.ne_dot hc.ne_dotdot, if_neg (Nat.not_lt.mpr hc.short)]
  cases fs.node? (here ++ [c]) with
  | none => rfl
  | some node =>
    cases node with
    | directory => exact walk_eq_walkWith.symm
    | file | link => rfl

theorem Walked.walk_eq (h : Walked fs follow limit here steps r) :
    fs.walk follow limit here steps = .ok r := by
  induction h with
  | @done follow limit here => rw [walk_eq_walkWith]; rfl
  | @stay follow limit here steps r h ih =>
    rw [walk_eq_walkWith] at ih ⊢
    exact ih
  | @up follow limit here steps r h ih =>
    rw [walk_eq_walkWith] at ih ⊢
    exact ih
  | down hc hnode h ih => rw [walk_down hc, hnode, ← ih]
  | file hc hnode => rw [walk_down hc, hnode]; rfl
  | link hc hnode => rw [walk_down hc, hnode]; rfl
  | followed hc hnode ht hgo h ih =>
    rw [walk_down hc, hnode]
    dsimp only
    rw [if_neg, if_neg (Nat.not_lt.mpr ht)]
    · exact ih
    · obtain hne | rfl := hgo
      · simp [hne]
      · simp

theorem walk_eq_ok :
    fs.walk follow limit here steps = .ok r ↔ Walked fs follow limit here steps r :=
  ⟨walked_of_walk, Walked.walk_eq⟩

namespace Walked

theorem mono (h : Walked fs follow limit here steps r) (hle : limit ≤ more) :
    Walked fs follow more here steps r := by
  induction h generalizing more with
  | done => exact .done
  | stay _ ih => exact .stay (ih hle)
  | up _ ih => exact .up (ih hle)
  | down hc hnode _ ih => exact .down hc hnode (ih hle)
  | file hc hnode => exact .file hc hnode
  | link hc hnode => exact .link hc hnode
  | followed hc hnode ht hgo _ ih =>
    obtain ⟨more, rfl⟩ : ∃ m, more = m + 1 := ⟨more - 1, by omega⟩
    exact .followed hc hnode ht hgo (ih (by omega))

/-- A walk in two parts: the steps in front lead to a directory, those behind go on from there over
the links that are left, and others in their place would do so too. -/
structure Parts (fs : FileSystem) (follow : Bool) (limit : Nat) (here : Place) (xs ys : List Text)
    (r : Place × Node) (q : Place) (left : Nat) : Prop where
  left_le : left ≤ limit
  front : Walked fs true limit here xs (q, .directory)
  back : Walked fs follow left q ys r
  resume : ∀ {f : Bool} {zs : List Text} {r' : Place × Node}, zs ≠ [] ∨ f = true →
    Walked fs f left q zs r' → Walked fs f limit here (xs ++ zs) r'

theorem Parts.nil (h : Walked fs follow limit here ys r) :
    Parts fs follow limit here [] ys r here limit :=
  ⟨Nat.le_refl _, .done, h, fun _ h => h⟩

/-- One more step in front that goes on without a link. -/
theorem Parts.step {there : Place} {left : Nat} (h : Parts fs follow limit there xs ys r q left)
    (hstep : ∀ {f : Bool} {zs : List Text} {r' : Place × Node}, Walked fs f limit there zs r' →
      Walked fs f limit here (c :: zs) r') : Parts fs follow limit here (c :: xs) ys r q left :=
  ⟨h.left_le, hstep h.front, h.back, fun hzs hw => hstep (h.resume hzs hw)⟩

theorem exists_parts (h : Walked fs follow limit here (xs ++ ys) r) (hys : ys ≠ []) :
    ∃ q left, Parts fs follow limit here xs ys r q left := by
  generalize hsteps : xs ++ ys = steps at h
  induction h generalizing xs with
  | done => exact absurd (List.append_eq_nil_iff.mp hsteps).2 hys
  | stay h ih =>
    obtain _ | ⟨c, xs⟩ := xs
    · obtain rfl : ys = _ := hsteps
      exact ⟨_, _, .nil (.stay h)⟩
    obtain ⟨rfl, hrest⟩ := List.cons.inj hsteps
    obtain ⟨q, left, hparts⟩ := ih hrest
    exact ⟨q, left, hparts.step .stay⟩
  | up h ih =>
    obtain _ | ⟨c, xs⟩ := xs
    · obtain rfl : ys = _ := hsteps
      exact ⟨_, _, .nil (.up h)⟩
    obtain ⟨rfl, hrest⟩ := List.cons.inj hsteps
    obtain ⟨q, left, hparts⟩ := ih hrest
    exact ⟨q, left, hparts.step .up⟩
  | down hc hnode h ih =>
    obtain _ | ⟨c, xs⟩ := xs
    · obtain rfl : ys = _ := hsteps
      exact ⟨_, _, .nil (.down hc hnode h)⟩
    obtain ⟨rfl, hrest⟩ := List.cons.inj hsteps
    obtain ⟨q, left, hparts⟩ := ih hrest
    exact ⟨q, left, hparts.step (.down hc hnode)⟩
  | file hc hnode =>
    obtain _ | ⟨c, xs⟩ := xs
    · obtain rfl : ys = _ := hsteps
      exact ⟨_, _, .nil (.file hc hnode)⟩
    · exact absurd (List.append_eq_nil_iff.mp (List.cons.inj hsteps).2).2 hys
  | link hc hnode =>
    obtain _ | ⟨c, xs⟩ := xs
    · obtain rfl : ys = _ := hsteps
      exact ⟨_, _, .nil (.link hc hnode)⟩
    · exact absurd (List.append_eq_nil_iff.mp (List.cons.inj hsteps).2).2 hys
  | @followed follow limit here c t steps r hc hnode ht hgo h ih =>
    obtain _ | ⟨c, xs⟩ := xs
    · obtain rfl : ys = _ := hsteps
      exact ⟨_, _, .nil (.followed hc hnode ht hgo h)⟩
    obtain ⟨rfl, rfl⟩ := List.cons.inj hsteps
    obtain ⟨q, left, hle, hfront, hback, hresume⟩ :=
      ih (List.append_assoc (pathSteps t) xs ys)
    refine ⟨q, left, Nat.le_succ_of_le hle, .followed hc hnode ht (.inr rfl) hfront, hback, ?_⟩
    intro f zs r' hzs hw
    have hback := hresume hzs hw
    rw [List.append_assoc] at hback
    exact .followed hc hnode ht (hzs.imp_left (List.append_ne_nil_of_right_ne_nil _)) hback

/-- A way over links comes to an end too where the last link is not followed. -/
theorem exists_unfollowed (h : Walked fs true limit here steps r) :
    ∃ r', Walked fs false limit here steps r' := by
  generalize hfollow : true = follow at h
  induction h with
  | done => exact ⟨_, .done⟩
  | stay _ ih => exact (ih hfollow).imp fun _ h => .stay h
  | up _ ih => exact (ih hfollow).imp fun _ h => .up h
  | down hc hnode _ ih => exact (ih hfollow).imp fun _ h => .down hc hnode h
  | file hc hnode => exact ⟨_, .file hc hnode⟩
  | link hc hnode => cases hfollow
  | @followed _ _ _ _ _ steps _ hc hnode ht hgo _ ih =>
    by_cases hsteps : steps = []
    · rw [hsteps]
      exact ⟨_, .link hc hnode⟩
    · exact (ih hfollow).imp fun _ h => .followed hc hnode ht (.inl hsteps) h

/-- Single dots can be left out of a way. -/
theorem filter (h : Walked fs true limit here steps r) :
    Walked fs true limit here (steps.filter (· != dot)) r := by
  induction limit using Nat.strong_induction_on generalizing here steps r with
  | _ limit ihlimit =>
  induction steps generalizing here with
  | nil => exact h
  | cons c steps ih =>
    cases h with
    | stay h => exact ih h
    | up h => exact .up (ih h)
    | down hc hnode h =>
      rw [List.filter_cons_of_pos (by simpa using hc.ne_dot)]
      exact .down hc hnode (ih h)
    | file hc hnode =>
      rw [List.filter_cons_of_pos (by simpa using hc.ne_dot)]
      exact .file hc hnode
    | followed hc hnode ht hgo h =>
      rw [List.filter_cons_of_pos (by simpa using hc.ne_dot)]
      refine .followed hc hnode ht (.inr rfl) ?_
      by_cases hsteps : steps = []
      · rwa [hsteps] at h ⊢
      -- The steps of the link stay as they are; those behind it go on from where it leads.
      · obtain ⟨q, left, hle, -, hback, hresume⟩ := exists_parts h hsteps
        exact hresume (.inr rfl) (ihlimit left (Nat.lt_succ_of_le hle) hback)

/-- A step to a name ends where the name is, or where a link there leads. -/
theorem name (h : Walked fs follow limit here [n] r) (hdot : n ≠ dot) (hdotdot : n ≠ dotdot) :
    ShortName n ∧ (fs.node? (here ++ [n])).isSome = true := by
  cases h with
  | stay => exact absurd rfl hdot
  | up => exact absurd rfl hdotdot
  | down hc hnode => exact ⟨hc.short, by rw [hnode]; rfl⟩
  | file hc hnode => exact ⟨hc.short, by rw [hnode]; rfl⟩
  | link hc hnode => exact ⟨hc.short, by rw [hnode]; rfl⟩
  | followed hc hnode => exact ⟨hc.short, by rw [hnode]; rfl⟩

end Walked

structure Nameable (fs : FileSystem) : Prop where
  nodes : ∀ e ∈ fs.nodes, ∀ n ∈ e.1, ∀ a ∈ n, ¬ Foreign a
  current : ∀ n ∈ fs.current, ∀ a ∈ n, ¬ Foreign a

theorem Nameable.of_node? (hfs : fs.Nameable) (h : fs.node? q = some node) :
    ∀ n ∈ q, ∀ a ∈ n, ¬ Foreign a := by
  unfold node? at h
  split at h
  next hinitial => exact fun n hn => hfs.current n ((List.isPrefixOf_iff_prefix.mp hinitial).mem hn)
  next =>
    obtain ⟨before, after, hnodes, -⟩ := List.lookup_eq_some_iff.mp h
    exact hfs.nodes (q, node) (by simp [hnodes])

theorem Walked.nameable (hfs : fs.Nameable) (h : Walked fs follow limit here steps r) :
    ∀ c ∈ steps, ∀ a ∈ c, ¬ Foreign a := by
  have hdot : ∀ a ∈ dot, ¬ Foreign a := by decide
  have hdotdot : ∀ a ∈ dotdot, ¬ Foreign a := by decide
  have hlast {here : Place} {c : Text} {node : Node} (hnode : fs.node? (here ++ [c]) = some node) :
      ∀ a ∈ c, ¬ Foreign a := hfs.of_node? hnode c (by simp)
  induction h with
  | done => exact List.forall_mem_nil _
  | stay _ ih => exact List.forall_mem_cons.mpr ⟨hdot, ih⟩
  | up _ ih => exact List.forall_mem_cons.mpr ⟨hdotdot, ih⟩
  | down _ hnode _ ih => exact List.forall_mem_cons.mpr ⟨hlast hnode, ih⟩
  | file _ hnode => exact List.forall_mem_singleton.mpr (hlast hnode)
  | link _ hnode => exact List.forall_mem_singleton.mpr (hlast hnode)
  | followed _ hnode _ _ _ ih =>
    exact List.forall_mem_cons.mpr ⟨hlast hnode, (List.forall_mem_append.mp ih).2⟩

theorem locate_eq_ok : fs.locate follow p = .ok r ↔ p ≠ [] ∧ nulMark ∉ p ∧ Short p ∧
    Walked fs follow linkLimit (startOf fs.current p) (pathSteps p) r := by
  constructor
  · intro h
    obtain ⟨hp, hnul, hshort⟩ := short_of_locate h
    rw [locate_iff hp hnul hshort, walk_eq_ok] at h
    exact ⟨hp, hnul, hshort, h⟩
  · rintro ⟨hp, hnul, hshort, h⟩
    rw [locate_iff hp hnul hshort, walk_eq_ok]
    exact h

/-- Where all names can be encoded, so can the paths that lead to something. -/
theorem Nameable.excludes {a : CodePoint} (hfs : fs.Nameable) (ha : Foreign a) :
    Glob.Excludes fs a where
  names e he n hn hmem := hfs.nodes e he n hn a hmem ha
  paths {follow p r} h hmem := by
    obtain ⟨-, -, -, h⟩ := locate_eq_ok.mp h
    have hparts : a ∈ ofParts (parts p) := (ofParts_parts p).symm ▸ hmem
    obtain rfl | ⟨n, hn, hmem⟩ := Text.mem_join hparts
    · exact ha.ne_slash rfl
    refine h.nameable hfs n ?_ a hmem ha
    have hsteps : n ∈ stepsOf p := List.mem_filter.mpr ⟨hn, by simpa using List.ne_nil_of_mem hmem⟩
    obtain heq | heq := pathSteps_cases p
    · rwa [heq]
    · rw [heq]
      exact List.mem_append_left _ hsteps

/-- What a path leads to, its names lead to. -/
theorem walked_of_locate (hrel : Relative p) (h : fs.locate true p = .ok r) :
    Walked fs true linkLimit fs.current (names p) r := by
  obtain ⟨-, -, -, h⟩ := locate_eq_ok.mp h
  rw [startOf_of_relative hrel] at h
  rw [names_eq_filter_pathSteps]
  exact h.filter

/-- A path that goes on by a part goes on from a directory. -/
theorem exists_parent (hd : d ≠ []) (hne : n ≠ []) (hn : slash ∉ n)
    (h : fs.locate follow (join d n) = .ok r) : ∃ q left, fs.locate true d = .ok (q, .directory) ∧
      left ≤ linkLimit ∧ Walked fs follow left q [n] r := by
  have hrel := relative_of_notMem hn
  have hsub := sublist_join hd hrel
  obtain ⟨-, hnul, hshort, h⟩ := locate_eq_ok.mp h
  rw [pathSteps_join hd hne hn, startOf_join hd hrel] at h
  obtain ⟨q, left, hle, hfront, hback, hresume⟩ := Walked.exists_parts h (List.cons_ne_nil _ _)
  refine ⟨q, left, locate_eq_ok.mpr ⟨hd, fun hmem => hnul (hsub.mem hmem), hshort.of_sublist hsub,
    ?_⟩, hle, hback⟩
  obtain hsteps | hsteps := pathSteps_cases d
  · rwa [hsteps]
  · rw [hsteps]
    exact hresume (.inr rfl) (.stay .done)

end FileSystem

end Terraload
