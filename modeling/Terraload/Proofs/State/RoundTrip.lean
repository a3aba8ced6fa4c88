import Terraload.Proofs.Json.Writing
import Terraload.Proofs.State
import Terraload.Proofs.State.Schema
/-!
Nothing of a state is lost when its value is written and read: neither if all fields are spelled
out, nor if some of those that have their defaults are left out.
-/
namespace Terraload

open Check (Reads)
open Verdict (map_passed ap_passed)

theorem reads_texts : Reads (Check.list Check.string) textList := Reads.string.list

theorem reads_optional {α : Type} {c : Check α} {f : α → Value} (h : Reads c f)
    (hf : ∀ a, f a ≠ .null) : Reads (Check.nullable c) (optional f) := by
  intro o
  cases o with
  | none => rfl
  | some a => rw [optional, Check.nullable_of_ne (hf a), h a, Verdict.map]

theorem reads_record {α : Type} {c : Members Value → Verdict α} {fields : α → List (String × Value)}
    (h : ∀ a, c ((fields a).map fun (k, v) => (text k, v)) = .passed a) :
    Reads (Check.object c) fun a => objectOf (fields a) := h

theorem RemoteState.reads : Reads check toValue := reads_record fun _ =>
  ap_passed
    (map_passed (Reads.string.field rfl))
    (Reads.object.field rfl)

theorem BackendState.reads : Reads check toValue := reads_record fun _ =>
  ap_passed (ap_passed
    (map_passed (Reads.string.field rfl))
    (Reads.object.field rfl))
    (Reads.integer.field rfl)

theorem OutputState.reads : Reads check toValue := reads_record fun _ =>
  ap_passed (ap_passed
    (map_passed (Reads.boolean.field rfl))
    (Reads.string.field rfl))
    (Reads.any.field rfl)

theorem InstanceState.reads : Reads check toValue := reads_record fun _ =>
  ap_passed (ap_passed (ap_passed
    (map_passed (Reads.string.field rfl))
    (Reads.object.field rfl))
    (Reads.object.field rfl))
    (Reads.boolean.field rfl)

theorem ResourceState.reads : Reads check toValue := reads_record fun _ =>
  ap_passed (ap_passed (ap_passed (ap_passed
    (map_passed (Reads.string.field rfl))
    (reads_texts.field rfl))
    ((reads_optional InstanceState.reads nofun).field rfl))
    (InstanceState.reads.list.field rfl))
    (Reads.string.field rfl)

theorem ModuleState.reads : Reads check toValue := reads_record fun _ =>
  ap_passed (ap_passed (ap_passed
    (map_passed (reads_texts.field rfl))
    (OutputState.reads.map.field rfl))
    (ResourceState.reads.map.field rfl))
    (reads_texts.field rfl)

theorem State.reads : Reads check toValue := reads_record fun _ =>
  ap_passed (ap_passed (ap_passed (ap_passed (ap_passed (ap_passed
    (map_passed (Reads.integer.field rfl))
    (Reads.string.field rfl))
    (Reads.integer.field rfl))
    (Reads.string.field rfl))
    ((reads_optional RemoteState.reads nofun).field rfl))
    ((reads_optional BackendState.reads nofun).field rfl))
    (ModuleState.reads.list.field rfl)

/-- Names that are left out do not change the order of the others. -/
theorem RetellsMembers.names_sublist {s : Schema} : ∀ {ms ns : Members Value},
    RetellsMembers .defaults s ms ns → ns.names.Sublist ms.names
  | _, _, .nil => .slnil
  | _, _, .kept _ _ hrest => hrest.names_sublist.cons_cons _
  | _, _, .omitted _ _ _ hrest => hrest.names_sublist.cons _

variable {lone : Bool}

mutual

/-- Where members are left out, what remains can be written as before. -/
theorem Retells.writable : ∀ {s : Schema} {v w : Value} {d : Nat}, Retells .defaults s v w →
    Json.Writable lone d v → Json.Writable lone d w
  | _, _, _, _, .same _ _, hv => hv
  | _, _, _, _, .nullable h, hv => h.writable hv
  | _, _, _, _, .list h, .list hv => .list (h.writable hv)
  | _, _, _, _, .map h, .object hnodup hnames hv =>
    .object (h.names_sublist.nodup hnodup) (h.writable hnames hv).1 (h.writable hnames hv).2
  | _, _, _, _, .record h, .object hnodup hnames hv =>
    .object (h.names_sublist.nodup hnodup) (h.writable hnames hv).1 (h.writable hnames hv).2

theorem RetellsItems.writable : ∀ {s : Schema} {vs ws : List Value} {d : Nat},
    RetellsItems .defaults s vs ws → (∀ v ∈ vs, Json.Writable lone d v) →
      ∀ w ∈ ws, Json.Writable lone d w
  | _, _, _, _, .nil, _ => nofun
  | _, _, _, _, .cons h hrest, hvs => by
    obtain ⟨hv, hvs⟩ := List.forall_mem_cons.mp hvs
    exact List.forall_mem_cons.mpr ⟨h.writable hv, hrest.writable hvs⟩

theorem RetellsMembers.writable : ∀ {s : Schema} {ms ns : Members Value} {d : Nat},
    RetellsMembers .defaults s ms ns → (∀ m ∈ ms, Json.Legible lone m.1) →
      (∀ m ∈ ms, Json.Writable lone d m.2) →
      (∀ m ∈ ns, Json.Legible lone m.1) ∧ ∀ m ∈ ns, Json.Writable lone d m.2
  | _, _, _, _, .nil, _, _ => ⟨nofun, nofun⟩
  | _, _, _, _, .kept _ h hrest, hnames, hms => by
    obtain ⟨hname, hnames⟩ := List.forall_mem_cons.mp hnames
    obtain ⟨hm, hms⟩ := List.forall_mem_cons.mp hms
    obtain ⟨hrest_names, hrest⟩ := hrest.writable hnames hms
    exact ⟨List.forall_mem_cons.mpr ⟨hname, hrest_names⟩,
      List.forall_mem_cons.mpr ⟨h.writable hm, hrest⟩⟩
  | _, _, _, _, .omitted _ _ _ hrest, hnames, hms =>
    hrest.writable (List.forall_mem_cons.mp hnames).2 (List.forall_mem_cons.mp hms).2

end

namespace State

open Json (WritesText Rules Writable)

/-- A state whose value can be written has texts, and any text of it is decoded to the state: with
all fields spelled out, or with some left out that have their defaults, here and there in its parts.
In particular it is empty where the state is, and its root module is that of the state. -/
theorem decode_written {s : State} {v : Value} (hs : Writable false Rules.strict.depth s.toValue)
    (hv : Retells .defaults schema s.toValue v) :
    (∃ cs, WritesText false Rules.strict.depth v (Text.ofChars cs)) ∧
    ∀ cs, WritesText false Rules.strict.depth v (Text.ofChars cs) →
      decode (Encoding.encode (Text.ofChars cs)) = .passed s ∧
      (decode (Encoding.encode (Text.ofChars cs))).map isEmpty = .passed s.isEmpty ∧
      (decode (Encoding.encode (Text.ofChars cs))).map rootModule? = .passed s.rootModule? := by
  refine ⟨?_, fun cs hcs => ?_⟩
  · obtain ⟨cs, hcs⟩ := (hv.writable hs).exists_writes
    exact ⟨cs, [], _, [], Json.blank_nil, hcs, Json.blank_nil, by simp⟩
  · have hread : Json.read .strict (Text.ofChars cs) = .ok v :=
      (Json.read_complete hcs).resolve_right fun hd => absurd hd.1 (Nat.lt_irrefl _)
    have hcheck : check v = .passed s := (respects hv).symm.trans (reads s)
    have hdecode : decode (Encoding.encode (Text.ofChars cs)) = .passed s := by
      rw [decode_encode, hread]
      exact hcheck
    rw [hdecode]
    exact ⟨rfl, rfl, rfl⟩

def sampleOutput : OutputState :=
  ⟨false, text "map", .object [(text "zone", .list [.null, .integer (-1)])]⟩

def sampleModule : ModuleState := ⟨[text "root"], [(text "zones", sampleOutput)], [], []⟩

def sample : State := ⟨4, text "0.11", 7, [], none, none, [sampleModule]⟩

def sampleInShort : Value := objectOf [
  ("version", .integer 4),
  ("terraform_version", .text (text "0.11")),
  ("serial", .integer 7),
  ("backend", .null),
  ("modules", .list [objectOf [
    ("path", textList [text "root"]),
    ("outputs", .object [(text "zones", objectOf [
      ("type", .text (text "map")),
      ("value", .object [(text "zone", .list [.null, .integer (-1)])])])]),
    ("depends_on", .list [])]])]

theorem sampleOutput_writable {d : Nat} : Writable false (d + 3) sampleOutput.toValue := by
  refine .of_names ["sensitive", "type", "value"] rfl (by decide) ?_
  simp only [sampleOutput, List.map_cons, List.map_nil, List.forall_mem_cons]
  refine ⟨.boolean false, .text (Json.legible_ofChars _), .of_names ["zone"] rfl (by decide) ?_,
    nofun⟩
  simp only [List.forall_mem_singleton]
  refine .list ?_
  simp only [List.forall_mem_cons]
  exact ⟨.null, .integer (by decide), nofun⟩

theorem sampleModule_writable {d : Nat} : Writable false (d + 5) sampleModule.toValue := by
  have hroot : Writable false (d + 4) (textList [text "root"]) := by
    refine .list ?_
    simp only [List.map_cons, List.map_nil, List.forall_mem_singleton]
    exact .text (Json.legible_ofChars _)
  refine .of_names ["path", "outputs", "resources", "depends_on"] rfl (by decide) ?_
  simp only [sampleModule, List.map_cons, List.map_nil, List.forall_mem_cons]
  refine ⟨hroot, .of_names ["zones"] rfl (by decide) ?_, .of_names [] rfl (by decide) nofun,
    .list nofun, nofun⟩
  simp only [List.forall_mem_singleton]
  exact sampleOutput_writable

theorem sample_writable : Writable false Rules.strict.depth sample.toValue := by
  have htext {d : Nat} (cs : List Char) : Writable false d (.text (Text.ofChars cs)) :=
    .text (Json.legible_ofChars cs)
  refine .of_names ["version", "terraform_version", "serial", "lineage", "remote", "backend",
    "modules"] rfl (by decide) ?_
  simp only [sample, List.map_cons, List.map_nil, List.forall_mem_cons]
  refine ⟨.integer (by decide), htext _, .integer (by decide), htext [], .null, .null, .list ?_,
    nofun⟩
  simp only [List.forall_mem_singleton]
  exact sampleModule_writable

theorem sample_retold : Retells .defaults schema sample.toValue sampleInShort := by
  have houtput : Retells .defaults OutputState.schema sampleOutput.toValue (objectOf [
      ("type", .text (text "map")),
      ("value", .object [(text "zone", .list [.null, .integer (-1)])])]) :=
    .record (.omitted rfl rfl (by decide) (.kept rfl (.same _ _) (.kept rfl (.same _ _) .nil)))
  have hmodule : Retells .defaults ModuleState.schema sampleModule.toValue (objectOf [
      ("path", textList [text "root"]),
      ("outputs", .object [(text "zones", objectOf [
        ("type", .text (text "map")),
        ("value", .object [(text "zone", .list [.null, .integer (-1)])])])]),
      ("depends_on", .list [])]) :=
    .record (.kept rfl (.same _ _) (.kept rfl (.map (.kept rfl houtput .nil))
      (.omitted rfl rfl (by decide) (.kept rfl (.same _ _) .nil))))
  exact .record (.kept rfl (.same _ _) (.kept rfl (.same _ _) (.kept rfl (.same _ _)
    (.omitted rfl rfl (by decide) (.omitted rfl rfl (by decide) (.kept rfl (.same _ _)
      (.kept rfl (.list (.cons hmodule .nil)) .nil)))))))

theorem decode_written_in_short :
    Writable false Rules.strict.depth sample.toValue ∧
    Retells .defaults schema sample.toValue sampleInShort ∧
    (∃ cs, WritesText false Rules.strict.depth sampleInShort (Text.ofChars cs)) ∧
    ∀ cs, WritesText false Rules.strict.depth sampleInShort (Text.ofChars cs) →
      decode (Encoding.encode (Text.ofChars cs)) = .passed sample ∧
      (decode (Encoding.encode (Text.ofChars cs))).map isEmpty = .passed sample.isEmpty ∧
      (decode (Encoding.encode (Text.ofChars cs))).map rootModule? = .passed sample.rootModule? :=
  ⟨sample_writable, sample_retold, decode_written sample_writable sample_retold⟩

end State

end Terraload
