import Terraload.Proofs.Command.Arguments
import Terraload.Proofs.Command.Loading
import Terraload.Proofs.Parser.Agreement
import Terraload.Proofs.Session.KeyOrigin
import Terraload.Proofs.Session.Pairing
import Terraload.Proofs.State
import Terraload.Proofs.Summary
/-!
What a run prints as JSON is one text, and it is read back as the document of the session that the
run came to. Names of files and arguments are bytes, and so may leave second halves of surrogate
pairs in keys, but no first halves that would take them for their own.
-/
namespace Terraload

structure Surroundings.Decoded (s : Surroundings) : Prop where
  names : ∀ e ∈ s.files.nodes, ∀ n ∈ e.1, n.Decoded
  values : ∀ v ∈ s.environment, v.2.Decoded

namespace LoadOptions

variable {o : LoadOptions} {s : Surroundings} {settings : Settings} {fs : FileSystem} {x : Surrogate}

theorem files_of_mem_history {e : Event} (h : e ∈ o.history fs) : e.files = fs := by
  obtain ⟨c, -, rfl⟩ := List.mem_map.mp h
  rfl

theorem Without.call (ho : o.Without (.surrogate x)) {e : Event} (h : e ∈ o.history fs) :
    e.call.Without (.surrogate x) := by
  obtain ⟨c, hc, rfl⟩ := List.mem_map.mp h
  rw [templateCalls, overlayCalls, List.cons_append, List.mem_cons, List.mem_append, List.mem_append]
    at hc
  obtain rfl | hc | hc | hc := hc
  · exact ho.directory
  · obtain ⟨m, hm, rfl⟩ := List.mem_map.mp hc
    exact ho.modules m hm
  · split at hc
    · cases List.mem_singleton.mp hc
      trivial
    · cases hc
  · cases List.mem_singleton.mp hc
    trivial

/-- The keys of a run are decoded as all is that they are made of. -/
theorem decoded_of_mem_keys (hs : s.Decoded)
    (ho : ∀ x : Surrogate, CodePoint.firstHalf (.surrogate x) = true → o.Without (.surrogate x))
    (hsettings : Settings.load s.files s.environment [] = .ok (.passed settings)) {key : Text}
    (hkey : key ∈ (o.session settings s.files).store.keys) : key.Decoded := by
  refine Text.decoded_iff.mpr fun x hx => ?_
  have hfiles : s.files.Without (.surrogate x) := fun e he n hn =>
    Text.decoded_iff.mp (hs.names e he n hn) x hx
  have hvalues : ∀ v ∈ s.environment, .surrogate x ∉ v.2 := fun v hv =>
    Text.decoded_iff.mp (hs.values v hv) x hx
  refine Session.replay_keys_without (fun e he => ?_) (fun e he => (ho x hx).call he)
    (Settings.load_without hvalues hsettings) hkey
  rw [files_of_mem_history he]
  exact hfiles

theorem decoded_lineage : (o.session settings fs).state.lineage.Decoded := by
  refine Text.decoded_iff.mpr fun x _ => ?_
  exact state_session_of (P := fun state => .surrogate x ∉ state.lineage) List.not_mem_nil
    fun bytes state hdecode => State.lineage_no_surrogate hdecode

theorem decoded_stateSource : (o.session settings fs).metrics.stateSource.Decoded := by
  have hsource := stateSource_session (o := o) settings fs
  simp only [Session.sourceNames, List.mem_cons, List.not_mem_nil, or_false] at hsource
  obtain h | h | h := hsource <;>
  · rw [h]
    exact Text.decoded_ofChars _

end LoadOptions

/-- What is written of a session is read as its document. -/
theorem Summary.read_json {s : Session} {t : Text} (hkeys : ∀ k ∈ s.store.keys, k.Decoded)
    (hlineage : s.state.lineage.Decoded) (hsource : s.metrics.stateSource.Decoded)
    (h : (Summary.ofSession s).json? = some t) :
    Parser.json.parse (Encoding.encode (unlines [t])) = .document s.document := by
  obtain ⟨hnumbers, rfl⟩ := json?_eq_some h
  have hwrites := (writable hnumbers hkeys hlineage hsource).writes (.indented 2) 0
  rw [arranged_ofSession] at hwrites
  have hline : unlines [Text.ofChars (Json.render (.indented 2) (ofSession s).toValue)] =
      Text.ofChars (Json.render (.indented 2) (ofSession s).toValue ++ ['\n']) := by
    simp [unlines, Json.ofChars_append]
  have htext : Json.WritesText true 2 (.object s.document)
      (Text.ofChars (Json.render (.indented 2) (ofSession s).toValue ++ ['\n'])) :=
    ⟨[], _, _, Json.blank_nil, hwrites, Json.blank_line 0, Json.ofChars_append _ _⟩
  rw [hline]
  obtain hread | ⟨hdeep, -⟩ := Parser.json_reads htext
  · exact hread
  · exact absurd hdeep (by decide)

open Session

/-- A run that prints JSON and ends well prints one text, from which the document of its last session
is read back. The keys in it are those of the store, in strictly ascending order. -/
theorem summary_read_back {s : Surroundings} {arguments : List Text} {o : LoadOptions}
    (hs : s.Decoded) (harguments : ∀ t ∈ arguments, t.Decoded)
    (hread : Command.read arguments = .ok (.load o)) (hjson : o.json = true)
    (hcode : (Command.run s arguments).code = 0) :
    ∃ settings, Settings.load s.files s.environment [] = .ok (.passed settings) ∧
      let session := o.session settings s.files
      Parser.json.parse (Encoding.encode (Command.run s arguments).output) =
        .document session.document ∧
      session.store.keys.Pairwise (fun a b => a.vals < b.vals) ∧
      ∀ key, key ∈ session.store.keys ↔ key ∈ session.store.templates.names := by
  have ho (x : Surrogate) (hx : CodePoint.firstHalf (.surrogate x) = true) :
      o.Without (.surrogate x) :=
    Command.read_without hread fun t ht => Text.decoded_iff.mp (harguments t ht) x hx
  have hrun : Command.run s arguments = o.run s := by simp only [Command.run, hread]
  rw [hrun] at hcode ⊢
  obtain ⟨settings, log, output, hload, hprinted, hend⟩ := LoadOptions.run_of_code hcode
  refine ⟨settings, hload, ?_, ?_, fun key => Store.mem_keys⟩
  · rw [hend]
    simp only [LoadOptions.printed, hjson, if_true] at hprinted
    split at hprinted
    next t ht =>
      cases hprinted
      exact Summary.read_json (fun k hk => LoadOptions.decoded_of_mem_keys hs ho hload hk)
        LoadOptions.decoded_lineage LoadOptions.decoded_stateSource ht
    · cases hprinted
  · have hpaired : (o.session settings s.files).store.Paired
        (Config.standard settings).templateParser :=
      replay_keeps (P := fun t => t.store.Paired (Config.standard settings).templateParser)
        (fun _ _ hchange ht => hchange.paired ht) (o.history s.files) Store.paired_empty
    exact Members.ascending_sorted hpaired.nodup

def undecodableName : Surroundings where
  files := (FileSystem.empty []).write (text "m" ++ .surrogate ⟨0x480⟩ :: text ".tf")
    (Encoding.encode (text "a = 1\n"))
  environment := []
  time := []
  session := []

theorem decoded_undecodableName : undecodableName.Decoded where
  names := by
    simp only [Text.Decoded]
    decide
  values := fun v hv => absurd hv List.not_mem_nil

def printingOptions : LoadOptions := ⟨text ".", [], [], true, true, false, false⟩

theorem read_printing :
    Command.read [text "load", text "--json"] = .ok (.load printingOptions) := rfl

def undecodableLoaded : Session where
  store := Store.empty.put (text "m" ++ .surrogate ⟨0x480⟩ :: text ".tf") [(text "a", .integer 1)]
    (Encoding.encode (text "a = 1\n"))
  state := State.empty
  tfvars := []
  metrics := { Metrics.zero with templatesLoaded := 1 }

theorem templates_undecodableName : ∃ log, Call.runAll (.standard .default) undecodableName.files
    printingOptions.templateCalls Session.empty = ⟨undecodableLoaded, log, none⟩ := by
  have hstep :
      let step := (Call.runAll (.standard .default) undecodableName.files
        printingOptions.templateCalls Session.empty)
      (step.session, step.failure) = (undecodableLoaded, none) := by
    decide +kernel
  obtain ⟨hsession, hfailure⟩ := Prod.mk.inj hstep
  exact ⟨_, by rw [← hsession, ← hfailure]⟩

theorem overlays_undecodableName : ∃ u log output, Call.runAll (.standard .default)
    undecodableName.files printingOptions.overlayCalls undecodableLoaded = ⟨u, log, none⟩ ∧
      printingOptions.printed u = .ok output := by
  have hstep :
      let step := (Call.runAll (.standard .default) undecodableName.files
        printingOptions.overlayCalls undecodableLoaded)
      (step.failure, (printingOptions.printed step.session).toBool) = (none, true) := by
    decide +kernel
  obtain ⟨hfailure, hprinted⟩ := Prod.mk.inj hstep
  generalize Call.runAll (.standard .default) undecodableName.files printingOptions.overlayCalls
    undecodableLoaded = step at hfailure hprinted ⊢
  cases h : printingOptions.printed step.session with
  | error f => rw [h] at hprinted; cases hprinted
  | ok output => exact ⟨step.session, step.log, output, by rw [← hfailure], h⟩

theorem run_undecodableName :
    (Command.run undecodableName [text "load", text "--json"]).code = 0 := by
  obtain ⟨log, htemplates⟩ := templates_undecodableName
  obtain ⟨u, more, output, hoverlays, hprinted⟩ := overlays_undecodableName
  have hsettings : Settings.load undecodableName.files undecodableName.environment [] =
      .ok (.passed .default) := rfl
  simp only [Command.run, read_printing, LoadOptions.run, hsettings,
    LoadOptions.runWith_of_printed htemplates hoverlays hprinted]

theorem summary_read_back_on_undecodable_name :
    let arguments := [text "load", text "--json"]
    undecodableName.Decoded ∧ (∀ t ∈ arguments, t.Decoded) ∧
      Command.read arguments = .ok (.load printingOptions) ∧ printingOptions.json = true ∧
      (Command.run undecodableName arguments).code = 0 ∧
      ∃ settings, Settings.load undecodableName.files undecodableName.environment [] =
          .ok (.passed settings) ∧
        let session := printingOptions.session settings undecodableName.files
        Parser.json.parse (Encoding.encode (Command.run undecodableName arguments).output) =
          .document session.document ∧
        session.store.keys.Pairwise (fun a b => a.vals < b.vals) ∧
        ∀ key, key ∈ session.store.keys ↔ key ∈ session.store.templates.names := by
  have harguments : ∀ t ∈ [text "load", text "--json"], t.Decoded := by
    simp only [Text.Decoded]
    decide
  exact ⟨decoded_undecodableName, harguments, read_printing, rfl, run_undecodableName,
    summary_read_back decoded_undecodableName harguments read_printing rfl run_undecodableName⟩

end Terraload
