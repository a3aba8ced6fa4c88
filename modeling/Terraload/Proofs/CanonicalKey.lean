import Terraload.Proofs.Path
import Terraload.Session
/-!
Keys that are cleaned paths. A key is made of a path by cleaning it first and turning backslashes
into slashes then, so that the names of the path are cut at their backslashes where no cleaning
comes any more.
-/
namespace Terraload

open Terraload.Path

variable {key : Text} {segments : List Text}

def backslash : CodePoint := .char '\\'

structure Canonical (key : Text) : Prop where
  slashes : backslash ∉ key
  single : ¬ [slash, slash] <:+: key
  undotted : dot ∉ parts key
  start : ¬ text "./" <+: key
  stable : normalizeKey (normalize key) = key

/-- The parts of a path that is canonical: those of the root, or settled names behind a root or
without one. -/
inductive Orderly : List Text → Prop
  | root : Orderly [[], []]
  | rooted {n : Text} {ns : List Text} (h : Settled true (n :: ns)) : Orderly ([] :: n :: ns)
  | relative {n : Text} {ns : List Text} (h : Settled false (n :: ns)) : Orderly (n :: ns)

theorem backslash_notMem_normalizeKey (q : Text) : backslash ∉ normalizeKey q := by
  simp only [normalizeKey, List.mem_map, not_exists, not_and]
  intro c _
  split
  · decide
  next h => exact h

theorem normalizeKey_of_notMem {q : Text} (h : backslash ∉ q) : normalizeKey q = q := by
  have hid : ∀ c ∈ q, (if c = .char '\\' then CodePoint.char '/' else c) = c := by
    intro c hc
    rw [if_neg]
    rintro rfl
    exact h hc
  rw [normalizeKey, List.map_congr_left hid, List.map_id']

/-- The parts of a key are those of the path, cut at their backslashes. -/
theorem parts_normalizeKey (q : Text) :
    parts (normalizeKey q) = (parts q).flatMap (Text.splitOn backslash) := by
  induction q with
  | nil => rfl
  | cons a q ih =>
    have hcons : normalizeKey (a :: q) =
      (if a = .char '\\' then .char '/' else a) :: normalizeKey q := rfl
    rw [hcons]
    by_cases hback : a = backslash
    · obtain ⟨p, ps, hsplit, heq⟩ := Text.splitOn_cons_of_ne (c := slash) (a := a)
        (by rw [hback]; decide) q
      have hslash : parts (slash :: normalizeKey q) = [] :: parts (normalizeKey q) := parts_root _
      have hp : Text.splitOn backslash (a :: p) = [] :: Text.splitOn backslash p := by
        rw [hback]
        exact Text.splitOn_append backslash [] p
      have hhead : (if a = .char '\\' then CodePoint.char '/' else a) = slash := if_pos hback
      rw [hhead, hslash, ih, parts, parts, heq, hsplit, List.flatMap_cons, List.flatMap_cons, hp]
      rfl
    · have hhead : (if a = .char '\\' then CodePoint.char '/' else a) = a := if_neg hback
      rw [hhead]
      by_cases hslash : a = slash
      · rw [hslash, parts_root, parts_root, ih]
        rfl
      · obtain ⟨p, ps, hsplit, heq⟩ := Text.splitOn_cons_of_ne hslash q
        obtain ⟨r, rs, hrest, hkey⟩ := Text.splitOn_cons_of_ne hslash (normalizeKey q)
        obtain ⟨t, ts, hp, hpa⟩ := Text.splitOn_cons_of_ne hback p
        rw [parts, parts] at ih
        rw [hrest, hsplit, List.flatMap_cons, hp, List.cons_append] at ih
        rw [parts, parts, hkey, heq, List.flatMap_cons, hpa]
        rw [(List.cons.inj ih).1, (List.cons.inj ih).2]
        rfl

theorem parts_doubled (a b : Text) :
    parts (a ++ slash :: slash :: b) = parts a ++ [] :: parts b := by
  rw [parts, Text.splitOn_append]
  exact congrArg (parts a ++ ·) (parts_root b)

/-- Where slashes are doubled, a part behind the first one is empty. -/
theorem nil_mem_tail_of_doubled (h : [slash, slash] <:+: key) : [] ∈ (parts key).tail := by
  obtain ⟨a, b, rfl⟩ := h
  have hkey : a ++ [slash, slash] ++ b = a ++ slash :: slash :: b := by simp
  rw [hkey, parts_doubled]
  cases hparts : parts a with
  | nil => exact absurd hparts (Text.splitOn_ne_nil slash a)
  | cons n ns => simp

theorem dot_mem_of_initial (h : text "./" <+: key) : dot ∈ parts key := by
  obtain ⟨r, rfl⟩ := h
  have hparts : parts (text "./" ++ r) = parts dot ++ parts r := Text.splitOn_append slash dot r
  rw [hparts]
  exact List.mem_append_left _ (by decide)

theorem canonical_of_parts (hback : backslash ∉ key) (hdot : dot ∉ parts key)
    (htail : [] ∉ (parts key).tail) (hnormal : normalize key = key) : Canonical key where
  slashes := hback
  single := fun h => htail (nil_mem_tail_of_doubled h)
  undotted := hdot
  start := fun h => hdot (dot_mem_of_initial h)
  stable := by rw [hnormal, normalizeKey_of_notMem hback]

theorem Orderly.canonical (h : Orderly (parts key)) (hback : backslash ∉ key) : Canonical key := by
  have hs : ∀ n ∈ parts key, slash ∉ n := fun n hn => slash_notMem_of_mem_parts hn
  have hkey := ofParts_parts key
  generalize hparts : parts key = segments at h hs hkey
  cases h with
  | root =>
    have hroot : key = [slash] := hkey.symm
    subst hroot
    exact ⟨hback, by decide, by decide, by decide, by decide⟩
  | @rooted n ns h =>
    have hrooted : key = slash :: ofParts (n :: ns) := by
      rw [← hkey]
      simp [ofParts, Text.join]
    refine canonical_of_parts hback ?_ ?_ ?_
    · rw [hparts, List.mem_cons, not_or]
      exact ⟨by decide, fun hmem => (h.said _ hmem).2 rfl⟩
    · rw [hparts]
      exact fun hmem => (h.said _ hmem).1 rfl
    · rw [hrooted]
      exact normalize_slash h fun m hm => hs m (List.mem_cons_of_mem _ hm)
  | @relative n ns h =>
    refine canonical_of_parts hback ?_ ?_ ?_
    · rw [hparts]
      exact fun hmem => (h.said _ hmem).2 rfl
    · rw [hparts]
      exact fun hmem => (h.said _ (List.mem_of_mem_tail hmem)).1 rfl
    · rw [← hkey]
      exact normalize_ofParts h hs (by simp)

theorem Canonical.orderly (h : Canonical key) : Orderly (parts key) := by
  have hnormal : normalize key = key := by
    have hback := notMem_normalize (a := backslash) (by decide) (by decide) h.slashes
    rw [← normalizeKey_of_notMem hback]
    exact h.stable
  have hne : root key ++ ofParts (reduced key) ≠ [] := by
    intro hnil
    refine h.undotted ?_
    rw [← hnormal, normalize_of_nil hnil]
    decide
  rw [normalize_of_ne hne] at hnormal
  have hsettled := settled_reduced key
  have hs : ∀ n ∈ reduced key, slash ∉ n := fun n hn => slash_notMem_of_mem_reduced hn
  generalize reduced key = ns at hsettled hs hne hnormal
  obtain ⟨-, hroot⟩ | ⟨q, -, -, hroot⟩ | ⟨r, hdouble⟩ := root_cases key
  · rw [hroot] at hsettled hne hnormal
    cases ns with
    | nil => exact absurd rfl hne
    | cons n ns =>
      rw [← hnormal, List.nil_append, parts_ofParts hs (by simp)]
      exact .relative hsettled
  · rw [hroot] at hsettled hne hnormal
    rw [← hnormal]
    cases ns with
    | nil => exact .root
    | cons n ns =>
      rw [List.singleton_append, parts_root, parts_ofParts hs (by simp)]
      exact .rooted hsettled
  · exact absurd ⟨[], r, by simpa using hdouble⟩ h.single

/-- A template's key is canonical exactly if the names of its path, cut at their backslashes, still
are the parts of a canonical path. -/
theorem canonical_templateKey_iff (path : Text) : Canonical (Session.templateKey path) ↔
    Orderly ((parts (normalize path)).flatMap (Text.splitOn backslash)) := by
  rw [← parts_normalizeKey]
  exact ⟨Canonical.orderly, fun h => h.canonical (backslash_notMem_normalizeKey _)⟩

end Terraload
