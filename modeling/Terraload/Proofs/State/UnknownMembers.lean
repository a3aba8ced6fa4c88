import Terraload.Proofs.Json.Insertion
import Terraload.Proofs.Json.Writing
import Terraload.Proofs.State
import Terraload.Proofs.State.Schema
/-!
Members that no part of a state has are of no account, wherever they stand in its text and whatever
their values are.
-/
namespace Terraload.State

open Json (InsertsText Inserts InsertsItems InsertsMembers Strange Spells Rules blank_nil)

/-- With unknown members put into the objects of its text, at any place of any part, a state is
decoded as without them: to the same state, or with the same problems. -/
theorem decode_inserted {cs cs' : List Char}
    (h : InsertsText schema Rules.strict.depth (Text.ofChars cs) (Text.ofChars cs')) :
    decode (Encoding.encode (Text.ofChars cs')) = decode (Encoding.encode (Text.ofChars cs)) := by
  rw [decode_encode, decode_encode]
  obtain ⟨v, v', hv, hv', hvalue⟩ | ⟨e, e', he, he'⟩ := Json.read_inserted h
  · rw [hv, hv']
    exact (respects hvalue).symm
  · rw [he, he']

def knownText : String :=
  "\x7b\"modules\":[\x7b\"outputs\":\x7b\"a\":\x7b\x7d\x7d\x7d],\"serial\":1\x7d"

def extendedText : String :=
  "\x7b\"x\":null,\"modules\":[\x7b\"y\":[],\"outputs\":\x7b\"a\":\x7b\"z\":\"s\"\x7d\x7d\x7d]," ++
    "\"serial\":1,\"w\":\x7b\x7d\x7d"

theorem spells_name {lone : Bool} (w : String)
    (h : Text.ofChars ((text w).flatMap Json.escape) = text w) : Spells lone (text w) (text w) := by
  have hspells : Spells lone (text w) (Text.ofChars ((text w).flatMap Json.escape)) :=
    Json.spells_flatMap (Json.legible_ofChars _)
  rwa [h] at hspells

theorem extends_known :
    InsertsText schema Rules.strict.depth (text knownText) (text extendedText) := by
  have hz : Strange OutputState.schema 195 _ :=
    ⟨[(text "z", .text (text "s"))],
      .last (spells_name "z" rfl) blank_nil blank_nil (.text (spells_name "s" rfl)) blank_nil,
      by simp only [List.forall_mem_singleton]; rfl⟩
  have houtput : Inserts OutputState.schema 196 _ _ := .fresh blank_nil blank_nil hz
  have houtputs : Inserts (.map OutputState.schema) 197 _ _ :=
    .members blank_nil blank_nil (.last (spells_name "a" rfl) blank_nil blank_nil houtput blank_nil)
  have hy : Strange ModuleState.schema 197 _ :=
    ⟨[(text "y", .list [])],
      .last (spells_name "y" rfl) blank_nil blank_nil (.noItems blank_nil) blank_nil,
      by simp only [List.forall_mem_singleton]; rfl⟩
  have hmodule : Inserts ModuleState.schema 198 _ _ :=
    .members blank_nil blank_nil (.before hy blank_nil
      (.last (spells_name "outputs" rfl) blank_nil blank_nil houtputs blank_nil))
  have hmodules : Inserts (.list ModuleState.schema) 199 _ _ :=
    .items blank_nil (.last hmodule blank_nil)
  have hx : Strange schema 199 _ :=
    ⟨[(text "x", .null)],
      .last (spells_name "x" rfl) blank_nil blank_nil (.word (w := "null") (by simp [Json.words]))
        blank_nil,
      by simp only [List.forall_mem_singleton]; rfl⟩
  have hw : Strange schema 199 _ :=
    ⟨[(text "w", .object [])],
      .last (spells_name "w" rfl) blank_nil blank_nil (.noMembers blank_nil) blank_nil,
      by simp only [List.forall_mem_singleton]; rfl⟩
  have hstate : Inserts schema 200 _ _ :=
    .members blank_nil blank_nil (.before hx blank_nil
      (.more (spells_name "modules" rfl) blank_nil blank_nil hmodules blank_nil blank_nil blank_nil
        blank_nil (.lastThen (spells_name "serial" rfl) blank_nil blank_nil (.number (.ofInt 1))
          blank_nil blank_nil blank_nil hw)))
  exact ⟨[], _, _, [], blank_nil, hstate, blank_nil, rfl, rfl⟩

theorem decode_inserted_into_known :
    InsertsText schema Rules.strict.depth (text knownText) (text extendedText) ∧
    decode (Encoding.encode (text extendedText)) = decode (Encoding.encode (text knownText)) :=
  ⟨extends_known, decode_inserted extends_known⟩

end Terraload.State
