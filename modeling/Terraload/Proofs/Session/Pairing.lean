import Terraload.Proofs.Members
import Terraload.Proofs.Session.Change
/-!
The two maps of a store stand in step: they have the same keys, and the document of a key is what the
template parser makes of the bytes of that key.
-/
namespace Terraload

structure Store.Paired (parser : Parser) (s : Store) : Prop where
  names : s.templates.names = s.files.names
  nodup : s.templates.names.Nodup
  parsed : ∀ key d, s.templates.get? key = some d →
    ∃ bytes, s.files.get? key = some bytes ∧ parser.parse bytes = .document d

namespace Store

variable {parser : Parser} {s : Store}

theorem paired_empty : empty.Paired parser :=
  ⟨rfl, .nil, by intro key d h; cases h⟩

/-- The new file replaces both halves of an old one, so that nothing of it stays behind. -/
theorem Paired.put (h : s.Paired parser) (key : Text) {d : Document} {bytes : Bytes}
    (hparse : parser.parse bytes = .document d) : (s.put key d bytes).Paired parser where
  names := by simp only [Store.put, Members.names_put, h.names]
  nodup := Members.nodup_names_put h.nodup key d
  parsed := by
    intro k e he
    simp only [Store.put, Members.get?_put] at he ⊢
    by_cases hk : k = key
    · rw [if_pos hk] at he ⊢
      cases he
      exact ⟨bytes, rfl, hparse⟩
    · rw [if_neg hk] at he ⊢
      exact h.parsed k e he

/-- A key is missing in both maps, or leads to a document and to the bytes of that document. -/
theorem Paired.get? (h : s.Paired parser) (key : Text) :
    (s.templates.get? key = none ∧ s.files.get? key = none) ∨
    ∃ d bytes, s.templates.get? key = some d ∧ s.files.get? key = some bytes ∧
      parser.parse bytes = .document d := by
  cases hd : s.templates.get? key with
  | none =>
    left
    refine ⟨rfl, ?_⟩
    rw [Members.get?_eq_none_iff] at hd ⊢
    rwa [← h.names]
  | some d =>
    right
    obtain ⟨bytes, hbytes, hparse⟩ := h.parsed key d hd
    exact ⟨d, bytes, rfl, hbytes, hparse⟩

end Store

namespace Session

theorem Change.paired {config : Config} {s t : Session} (h : Change config s t)
    (hs : s.store.Paired config.templateParser) : t.store.Paired config.templateParser := by
  cases h with
  | template key hparse => exact hs.put key hparse
  | moduleFile key hparse => exact hs.put key hparse
  | stateMissed source => exact hs
  | stateLoaded state hsource => exact hs
  | tfvarsSkipped => exact hs
  | tfvarsLoaded d => exact hs

/-- After any history of calls the two maps of the store have the same keys, each once, and a key
that is there leads to a document and to the very bytes that the template parser reads as it. -/
theorem replay_paired (config : Config) (history : List Event) :
    let s := (replay config history empty).store
    s.templates.names = s.files.names ∧ s.templates.names.Nodup ∧
    ∀ key, (s.templates.get? key = none ∧ s.files.get? key = none) ∨
      ∃ d bytes, s.templates.get? key = some d ∧ s.files.get? key = some bytes ∧
        config.templateParser.parse bytes = .document d := by
  have h : (replay config history empty).store.Paired config.templateParser :=
    replay_keeps (P := fun s => s.store.Paired config.templateParser)
      (fun _ _ hchange hs => hchange.paired hs) history Store.paired_empty
  exact ⟨h.names, h.nodup, h.get?⟩

end Session

end Terraload
