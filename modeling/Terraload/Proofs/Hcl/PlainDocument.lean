import Terraload.Proofs.Hcl.Lines
/-!
A text with one line for each member is read as the document of these members.
-/
namespace Terraload.Hcl

variable {s : List Char} {doc : Document}

/-- A line for a member is that of an attribute. -/
theorem PlainLines.lines (h : PlainLines doc s) : ∃ ms : List (Name × Value),
    doc = (ms.map fun m => (Text.ofChars m.1, m.2)) ∧
      Lines (ms.map fun m => .attribute m.1 m.2) s := by
  induction h with
  | nil => exact ⟨[], rfl, .nil⟩
  | @line k v s r d hk h hr ih =>
    obtain ⟨ms, rfl, hms⟩ := ih
    exact ⟨(k, v) :: ms, rfl, .plain indent_nil hk h hms⟩

theorem PlainDocument.read (h : PlainDocument doc s) :
    ∃ body, Body.read? s = some body ∧ body.document = .ok doc := by
  obtain ⟨ms, rfl, hlines⟩ := h.lines.lines
  have hnames := h.names
  have hnodup : (ms.map (·.1)).Nodup := by
    rw [Members.names, List.map_map] at hnames
    refine List.Nodup.of_map Text.ofChars ?_
    rwa [List.map_map]
  have hshares := shares_attributes ms
  rw [← gather_attributes hnodup, ← hshares]
  exact hlines.read (hshares ▸ compatible_attributes hnodup)

end Terraload.Hcl
