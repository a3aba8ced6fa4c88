import Terraload.Proofs.CanonicalKey
import Terraload.Proofs.FileSystem.Readable
import Terraload.Proofs.FileSystem.Relative
import Terraload.Proofs.Session.Change
import Terraload.Proofs.Store
/-!
The keys that calls leave in a store, and what they are where all calls load templates by relative
patterns: keys without a backslash, each of them canonical unless a backslash in the name of its
file leaves a part that cleaning would have taken away.
-/
namespace Terraload

open Terraload.Path

def Edit.key? : Edit → Option Text
  | .template key _ _ | .moduleFile key _ _ => some key
  | .stateMissed _ | .stateLoaded _ _ | .tfvarsSkipped | .tfvarsLoaded _ => none

theorem Edit.mem_keys_apply {e : Edit} {s : Session} {key : Text} :
    key ∈ (e.apply s).store.keys ↔ key ∈ s.store.keys ∨ e.key? = some key := by
  cases e with
  | template other d bytes =>
    simp only [apply, key?, Store.mem_keys_put, Option.some.injEq, eq_comm]
  | moduleFile other d bytes =>
    simp only [apply, key?, Store.mem_keys_put, Option.some.injEq, eq_comm]
  | _ => simp [apply, key?]

namespace Session

variable {config : Config} {history : List Event} {s : Session} {key : Text}

theorem mem_keys_edits {edits : List Edit} :
    key ∈ (edits.foldl Edit.apply s).store.keys ↔
      key ∈ s.store.keys ∨ ∃ e ∈ edits, e.key? = some key := by
  induction edits generalizing s with
  | nil => simp
  | cons e edits ih =>
    rw [List.foldl_cons, ih, Edit.mem_keys_apply]
    simp [or_assoc]

theorem mem_keys_run {fs : FileSystem} {c : Call} (h : key ∈ (c.run config fs s).session.store.keys) :
    key ∈ s.store.keys ∨ ∃ e, Edit.From config fs c e ∧ e.key? = some key := by
  obtain ⟨edits, log, failure, hrun, hedits⟩ := makes_run config fs c
  have hstep : c.run config fs s = ⟨edits.foldl Edit.apply s, log, failure⟩ := hrun s
  rw [hstep, mem_keys_edits] at h
  obtain h | ⟨e, he, hkey⟩ := h
  · exact .inl h
  · exact .inr ⟨e, hedits e he, hkey⟩

/-- A key at the end of a history was there before, or an edit of one of its calls stored it. -/
theorem mem_keys_replay (h : key ∈ (replay config history s).store.keys) :
    key ∈ s.store.keys ∨
      ∃ event ∈ history, ∃ e, Edit.From config event.files event.call e ∧ e.key? = some key := by
  induction history generalizing s with
  | nil => exact .inl h
  | cons event history ih =>
    obtain h | ⟨later, hlater, he⟩ := ih h
    · obtain h | he := mem_keys_run h
      · exact .inl h
      · exact .inr ⟨event, by simp, he⟩
    · exact .inr ⟨later, by simp [hlater], he⟩

end Session

inductive Call.LoadsRelative : Call → Prop
  | template {pattern : Text} (h : Relative pattern) : LoadsRelative (.template pattern)
  | directory {path : Text} (h : Relative path) : LoadsRelative (.directory path)

theorem relative_escape {p : Text} (h : Relative p) : Relative (Wildcard.escape p) := by
  cases p with
  | nil => exact h
  | cons c p =>
    rw [Wildcard.escape, List.flatMap_cons]
    split
    · exact relative_append (by simp [Relative, slash]) (by simp)
    · exact relative_append (by simpa [Relative] using h) (by simp)

theorem relative_normalize {p : Text} (h : Relative p) : Relative (normalize p) := by
  by_cases hnil : root p ++ ofParts (reduced p) = []
  · rw [normalize_of_nil hnil]
    exact relative_of_notMem (by decide)
  · rw [normalize_of_ne hnil, root_of_relative h, List.nil_append]
    exact relative_ofParts (fun n hn => slash_notMem_of_mem_reduced hn)
      fun hn => ((settled_reduced p).said _ hn).1 rfl

theorem relative_directoryPattern (settings : Settings) {d : Text} (h : Relative d) :
    Relative (Session.directoryPattern settings d) := by
  refine relative_join (relative_escape (relative_normalize h)) ?_
  exact relative_append (p := text "*.") (relative_of_notMem (by decide)) (by decide)

theorem Call.LoadsRelative.pattern {c : Call} (h : c.LoadsRelative) (settings : Settings)
    {pattern : Text} (hpattern : c.templatePattern? settings = some pattern) : Relative pattern := by
  cases h with
  | template h =>
    cases hpattern
    exact h
  | directory h =>
    cases hpattern
    exact relative_directoryPattern settings h

inductive Event.Finds (config : Config) (e : Event) (path : Text) : Prop
  | intro {pattern : Text} {found : List Text} {bytes : Bytes}
      (hpattern : e.call.templatePattern? config.settings = some pattern)
      (hfound : Glob.paths e.files false pattern = .ok found) (hpath : path ∈ found)
      (hread : e.files.read path = .ok bytes)

/-- The cleaned form of a path that is found from the current directory on is a row of names which
are settled. -/
theorem Event.Finds.orderly {config : Config} {e : Event} {path : Text} (h : e.Finds config path)
    (hnamed : e.files.Named) (hcall : e.call.LoadsRelative) :
    parts (normalize path) = reduced path ∧ Orderly (reduced path) := by
  obtain ⟨hpattern, hfound, hpath, hread⟩ := h
  have hrel := Glob.paths_relative hnamed (hcall.pattern config.settings hpattern) hfound hpath
  obtain ⟨hparts, n, ns, hreduced⟩ := parts_normalize_of_read hrel hread
  have hsettled := settled_reduced path
  rw [root_of_relative hrel, hreduced] at hsettled
  exact ⟨hparts, hreduced ▸ .relative hsettled⟩

/-- Where a path has no backslash its key is the cleaned path, with the parts of that. -/
theorem Orderly.templateKey {path : Text} (h : Orderly (parts (normalize path)))
    (hback : backslash ∉ path) : Canonical (Session.templateKey path) := by
  have hclean : backslash ∉ normalize path := notMem_normalize (by decide) (by decide) hback
  rw [Session.templateKey, normalizeKey_of_notMem hclean]
  exact h.canonical hclean

/-- Where templates are loaded by relative patterns, no key has a backslash. Each one belongs to a
path that was found, and it is canonical exactly if the parts of the cleaned path still are those of
a canonical path where they are cut at their backslashes; so it is if the path has none. -/
theorem Session.replay_template_keys (config : Config) {history : List Event}
    (hnamed : ∀ e ∈ history, e.files.Named) (hcalls : ∀ e ∈ history, e.call.LoadsRelative)
    {key : Text} (hkey : key ∈ (replay config history empty).store.keys) :
    backslash ∉ key ∧
      ∃ e ∈ history, ∃ path, e.Finds config path ∧ key = templateKey path ∧
        Orderly (parts (normalize path)) ∧
        (Canonical key ↔
          Orderly ((parts (normalize path)).flatMap (Text.splitOn backslash))) ∧
        (backslash ∉ path → Canonical key) := by
  obtain hkey | ⟨⟨fs, c⟩, hevent, e, he, hkey⟩ := mem_keys_replay hkey
  · rw [Store.mem_keys] at hkey
    cases hkey
  have hcall := hcalls _ hevent
  cases he with
  | template hpattern hfound hpath hstores =>
    cases hkey
    have hfinds := Event.Finds.intro hpattern hfound hpath hstores.read
    obtain ⟨hparts, horderly⟩ := hfinds.orderly (hnamed _ hevent) hcall
    rw [← hparts] at horderly
    exact ⟨backslash_notMem_normalizeKey _, _, hevent, _, hfinds, rfl, horderly,
      canonical_templateKey_iff _, horderly.templateKey⟩
  | _ => cases hcall

def soleTemplate (name : String) : List Event :=
  let fs := (FileSystem.empty []).write (text "d" ++ slash :: text name)
    (Encoding.encode (text "a = 1\n"))
  [⟨fs, .template (text "./d//*.tf")⟩, ⟨fs, .directory (text "d/.")⟩]

theorem soleTemplate_relative (name : String) :
    ∀ e ∈ soleTemplate name, e.call.LoadsRelative := by
  intro e he
  simp only [soleTemplate, List.mem_cons, List.not_mem_nil, or_false] at he
  obtain rfl | rfl := he
  · exact .template (by simp [Relative, text, Text.ofChars, slash])
  · exact .directory (by simp [Relative, text, Text.ofChars, slash])

/-- One backslash in a name parts it in two. -/
theorem Session.replay_template_keys_on_sample :
    (∀ e ∈ soleTemplate "a\\b.tf", e.files.Named) ∧
      (∀ e ∈ soleTemplate "a\\b.tf", e.call.LoadsRelative) ∧
      text "d/a/b.tf" ∈ (replay (.standard .default) (soleTemplate "a\\b.tf") empty).store.keys ∧
      backslash ∉ text "d/a/b.tf" ∧
      ∃ e ∈ soleTemplate "a\\b.tf", ∃ path, e.Finds (.standard .default) path ∧
        text "d/a/b.tf" = templateKey path ∧ Orderly (parts (normalize path)) ∧
        (Canonical (text "d/a/b.tf") ↔
          Orderly ((parts (normalize path)).flatMap (Text.splitOn backslash))) ∧
        (backslash ∉ path → Canonical (text "d/a/b.tf")) := by
  have hnamed : ∀ e ∈ soleTemplate "a\\b.tf", e.files.Named := by
    simp only [FileSystem.Named]
    decide
  have hkeys : (replay (.standard .default) (soleTemplate "a\\b.tf") empty).store.keys =
      [text "d/a/b.tf"] := by
    decide +kernel
  have hkey : text "d/a/b.tf" ∈
      (replay (.standard .default) (soleTemplate "a\\b.tf") empty).store.keys := by
    rw [hkeys]
    exact List.mem_singleton_self _
  exact ⟨hnamed, soleTemplate_relative _, hkey,
    replay_template_keys _ hnamed (soleTemplate_relative _) hkey⟩

/-- Two backslashes one behind the other, which cleaning takes for letters, come to be a doubled
slash. -/
theorem Session.doubled_backslash_key :
    (∀ e ∈ soleTemplate "a\\\\b.tf", e.files.Named) ∧
      (∀ e ∈ soleTemplate "a\\\\b.tf", e.call.LoadsRelative) ∧
      ∃ key ∈ (replay (.standard .default) (soleTemplate "a\\\\b.tf") empty).store.keys,
        [slash, slash] <:+: key ∧ normalizeKey (normalize key) ≠ key ∧ ¬ Canonical key := by
  have hnamed : ∀ e ∈ soleTemplate "a\\\\b.tf", e.files.Named := by
    simp only [FileSystem.Named]
    decide
  have hkeys : (replay (.standard .default) (soleTemplate "a\\\\b.tf") empty).store.keys =
      [text "d/a//b.tf"] := by
    decide +kernel
  have hdouble : [slash, slash] <:+: text "d/a//b.tf" := ⟨text "d/a", text "b.tf", by decide⟩
  refine ⟨hnamed, soleTemplate_relative _, text "d/a//b.tf", ?_, hdouble, by decide,
    fun h => h.single hdouble⟩
  rw [hkeys]
  exact List.mem_singleton_self _

end Terraload
