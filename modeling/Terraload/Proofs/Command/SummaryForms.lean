import Terraload.Proofs.Command.FailFast
import Terraload.Proofs.Command.PrintedSummary
import Terraload.Proofs.Json.Printable
import Terraload.Proofs.Path
/-!
The two forms of a summary. Whether a run is to print for reading or as JSON, it ends with the same
code, the same errors and the same crash, and where it ends well the lines for reading say what the
JSON document says.
-/
namespace Terraload

namespace Text

variable {t : Text} {c : CodePoint}

theorem unstyledFrom_sublist (n : Nat) (t : Text) : (unstyledFrom n t).Sublist t := by
  induction t generalizing n with
  | nil => exact List.Sublist.refl _
  | cons c t ih =>
    cases n with
    | succ n => exact (ih n).cons c
    | zero =>
      rw [unstyledFrom]
      split
      · split
        · exact (ih _).cons c
        · exact (ih 0).cons_cons c
      · exact (ih 0).cons_cons c

theorem notMem_unstyled (h : c ∉ t) : c ∉ t.unstyled :=
  fun hc => h ((unstyledFrom_sublist 0 t).subset hc)

/-- Lines are found again where their ends are. -/
theorem splitOn_unlines {lines : List Text} (h : ∀ l ∈ lines, .char '\n' ∉ l) :
    (unlines lines).splitOn (.char '\n') = lines ++ [[]] := by
  induction lines with
  | nil => rfl
  | cons l lines ih =>
    obtain ⟨hl, hlines⟩ := List.forall_mem_cons.mp h
    have hone : l.splitOn (.char '\n') = [l] :=
      splitOn_join (List.forall_mem_singleton.mpr hl) (List.cons_ne_nil _ _)
    have hcons : unlines (l :: lines) = l ++ .char '\n' :: unlines lines := by simp [unlines]
    rw [hcons, splitOn_append, hone, ih hlines]
    rfl

structure Line (t : Text) : Prop where
  oneLine : .char '\n' ∉ t
  valid : ∀ x : Surrogate, .surrogate x ∉ t

theorem Line.decoded (h : t.Line) : t.Decoded := decoded_iff.mpr fun x _ => h.valid x

theorem newline_notMem_intDigits (i : Int) : .char '\n' ∉ ofChars (intDigits i) := by
  intro h
  obtain ⟨d, hd, heq⟩ := List.mem_map.mp h
  cases heq
  exact absurd (Json.printable_intDigits i _ hd) (by decide)

theorem newline_notMem_natDigits (n : Nat) : .char '\n' ∉ ofChars (natDigits n) :=
  newline_notMem_intDigits n

end Text

structure Session.Listable (s : Session) : Prop where
  keys : ∀ k ∈ s.store.keys, k.Line
  lineage : s.state.lineage.Line
  counts : ∀ n ∈ (Summary.ofSession s).counts, (natDigits n).length ≤ Json.digitLimit

namespace Summary

variable {s : Summary}

theorem newline_notMem_lines (hkeys : ∀ k ∈ s.templates, k.Line) (hlineage : s.lineage.Line) :
    ∀ l ∈ s.lines, .char '\n' ∉ l := by
  have htext (words : String) (h : '\n' ∉ words.toList) : .char '\n' ∉ text words :=
    fun hmem => h (by simpa [text, Text.ofChars] using hmem)
  have hstate : .char '\n' ∉ s.stateLine := by
    rw [stateLine]
    split
    · simp only [List.mem_append, not_or]
      exact ⟨⟨⟨htext _ (by decide), Text.newline_notMem_intDigits _⟩, htext _ (by decide)⟩,
        Text.notMem_unstyled hlineage.oneLine⟩
    · exact htext _ (by decide)
  intro l hl
  simp only [lines, List.mem_append, List.mem_cons, List.not_mem_nil, or_false, List.mem_map] at hl
  obtain (rfl | ⟨k, hk, rfl⟩) | rfl | rfl := hl
  · exact List.not_mem_append (htext _ (by decide)) (Text.newline_notMem_natDigits _)
  · exact List.not_mem_append (htext _ (by decide)) (Text.notMem_unstyled (hkeys k hk).oneLine)
  · exact List.not_mem_append (htext _ (by decide)) (Text.newline_notMem_natDigits _)
  · exact hstate

end Summary

namespace LoadOptions

variable {o : LoadOptions} {s : Surroundings} {settings : Settings}

theorem printed_json (h : (o.session settings s.files).Listable) :
    ∃ t, (Summary.ofSession (o.session settings s.files)).json? = some t ∧
      { o with json := true }.printed (o.session settings s.files) = .ok (unlines [t]) := by
  obtain ⟨output, hshown⟩ : ∃ output, { o with json := true }.shown?
      (Summary.ofSession (o.session settings s.files)) = some output :=
    shown?_session (o := { o with json := true }) fun _ => h.counts
  obtain ⟨t, ht, rfl⟩ := Option.map_eq_some_iff.mp hshown
  exact ⟨t, ht, printed_of_shown? hshown⟩

/-- The form of a summary has no part in how a run ends, but for what is printed. -/
theorem runWith_forms (h : (o.session settings s.files).Listable) :
    let shown := { o with json := false }.runWith settings s
    let encoded := { o with json := true }.runWith settings s
    shown.code = encoded.code ∧ shown.errors = encoded.errors ∧ shown.crash = encoded.crash := by
  intro shown encoded
  cases htemplates :
      Call.runAll (Config.standard settings) s.files o.templateCalls Session.empty with
  | mk first log failure =>
    have hcalls (b : Bool) : Call.runAll (Config.standard settings) s.files
        { o with json := b }.templateCalls Session.empty = ⟨first, log, failure⟩ := htemplates
    cases failure with
    | some f =>
      have hend (b : Bool) : { o with json := b }.runWith settings s =
          if reports f then ⟨1, [], written (o.journal settings s) (log ++ [failedEntry f]) ++
            printedLines [f.render true], none⟩
          else ⟨1, [], written (o.journal settings s) log, some (.failed f)⟩ := by
        simp only [runWith, hcalls]
        rfl
      simp only [shown, encoded, hend, and_self]
    | none =>
      cases hoverlays : Call.runAll (Config.standard settings) s.files o.overlayCalls first with
      | mk last more failure =>
        have hmore (b : Bool) : Call.runAll (Config.standard settings) s.files
            { o with json := b }.overlayCalls first = ⟨last, more, failure⟩ := hoverlays
        cases failure with
        | some f =>
          have hend (b : Bool) : { o with json := b }.runWith settings s =
              ⟨1, [], written (o.journal settings s) (log ++ more), some (.failed f)⟩ := by
            simp only [runWith, hcalls, hmore]
            rfl
          simp only [shown, encoded, hend, and_self]
        | none =>
          have hlast : last = o.session settings s.files := eq_session htemplates hoverlays
          obtain ⟨t, -, hprinted⟩ := printed_json h
          rw [← hlast] at hprinted
          have hencoded := runWith_of_printed (hcalls true) (hmore true) hprinted
          have hshown := runWith_of_printed (hcalls false) (hmore false) rfl
          rw [show shown = _ from hshown, show encoded = _ from hencoded]
          exact ⟨rfl, rfl, rfl⟩

/-- Nor has it with settings that are not valid. -/
theorem run_forms (h : ∀ {settings},
      Settings.load s.files s.environment [] = .ok (.passed settings) →
      (o.session settings s.files).Listable) :
    let shown := { o with json := false }.run s
    let encoded := { o with json := true }.run s
    shown.code = encoded.code ∧ shown.errors = encoded.errors ∧ shown.crash = encoded.crash := by
  simp only [run]
  cases hload : Settings.load s.files s.environment [] with
  | error p => exact ⟨rfl, rfl, rfl⟩
  | ok verdict =>
    cases verdict with
    | failed ps => exact ⟨rfl, rfl, rfl⟩
    | passed settings => exact runWith_forms (h hload)

/-- What a run prints as JSON is read back as the document of its session. -/
theorem parse_encoded (hload : Settings.load s.files s.environment [] = .ok (.passed settings))
    (h : (o.session settings s.files).Listable) (hcode : ({ o with json := true }.run s).code = 0) :
    Parser.json.parse (Encoding.encode ({ o with json := true }.run s).output) =
      .document (o.session settings s.files).document := by
  obtain ⟨settings', _, output, hload', hprinted, hrun⟩ := run_of_code hcode
  cases hload.symm.trans hload'
  obtain ⟨t, ht, hjson⟩ := printed_json h
  cases hprinted.symm.trans hjson
  rw [hrun]
  exact Summary.read_json (fun k hk => (h.keys k hk).decoded) decoded_lineage decoded_stateSource ht

theorem shown_output (hload : Settings.load s.files s.environment [] = .ok (.passed settings))
    (hcode : ({ o with json := false }.run s).code = 0) :
    ({ o with json := false }.run s).output =
      unlines (Summary.ofSession (o.session settings s.files)).lines := by
  obtain ⟨settings', _, output, hload', hprinted, hrun⟩ := run_of_code hcode
  cases hload.symm.trans hload'
  cases hprinted
  rw [hrun]
  rfl

/-- Whatever a run finds and is asked for, it ends in the same way in both forms of the summary, if
its keys and its lineage are lines. Where it ends well, the JSON document is read back, and the
lines for reading are the number of its templates, each of them in the same order, the number of its
overrides, and its serial and lineage if it has loaded state; control sequences are left out. -/
theorem summary_forms_agree (h : ∀ {settings},
      Settings.load s.files s.environment [] = .ok (.passed settings) →
      (o.session settings s.files).Listable) :
    let shown := { o with json := false }.run s
    let encoded := { o with json := true }.run s
    shown.code = encoded.code ∧ shown.errors = encoded.errors ∧ shown.crash = encoded.crash ∧
      (shown.code = 0 → ∃ (d state : Document) (templates : List Text) (count : Nat) (loaded : Bool)
        (serial : Int) (lineage : Text),
        Parser.json.parse (Encoding.encode encoded.output) = .document d ∧
        d.get? (text "templates") = some (.list (templates.map .text)) ∧
        d.get? (text "tfvars_count") = some (.integer count) ∧
        d.get? (text "state") = some (.object state) ∧
        state.get? (text "loaded") = some (.boolean loaded) ∧
        state.get? (text "serial") = some (.integer serial) ∧
        state.get? (text "lineage") = some (.text lineage) ∧
        shown.output.splitOn (.char '\n') =
          [text "Templates: " ++ Text.ofChars (natDigits templates.length)]
            ++ templates.map (fun k => text "  - " ++ k.unstyled)
            ++ [text "Tfvars: " ++ Text.ofChars (natDigits count),
              if loaded then text "State: serial " ++ Text.ofChars (intDigits serial)
                ++ text ", lineage " ++ lineage.unstyled
              else text "State: none",
              []]) := by
  intro shown encoded
  obtain ⟨hcode, herrors, hcrash⟩ := run_forms h
  refine ⟨hcode, herrors, hcrash, fun hzero => ?_⟩
  obtain ⟨settings, _, output, hload, -, -⟩ := run_of_code hzero
  have hlist := h hload
  refine ⟨_, _, _, _, _, _, _, parse_encoded hload hlist (hcode ▸ hzero), rfl, rfl, rfl, rfl, rfl,
    rfl, ?_⟩
  rw [shown_output hload hzero,
    Text.splitOn_unlines (Summary.newline_notMem_lines hlist.keys hlist.lineage)]
  simp only [Summary.lines, Summary.stateLine, Summary.ofSession, List.append_assoc,
    List.cons_append, List.nil_append]

def styledLineage : Text := text "a\x1b[1mb"

def styledState : Surroundings where
  files := (FileSystem.empty []).write (text "terraform.tfstate")
    (Encoding.encode (text "\x7b\"serial\": 1, \"lineage\": \"a\\u001b[1mb\"\x7d"))
  environment := []
  time := []
  session := []

theorem settings_styledState :
    Settings.load styledState.files styledState.environment [] = .ok (.passed .default) := rfl

theorem session_styledState :
    (fun t : Session =>
        (t.store.keys, t.state.isEmpty, t.state.lineage, (Summary.ofSession t).counts))
      (plainOptions.session .default styledState.files) =
      ([], false, styledLineage, [0, 0, 0, 0, 0, 0, 0]) := by
  decide +kernel

theorem shown_styledState :
    (fun e : Ending => (e.code, e.output)) ({ plainOptions with json := false }.run styledState) =
      (0, text "Templates: 0\nTfvars: 0\nState: serial 1, lineage ab\n") := by
  decide +kernel

theorem listable_styledState : (plainOptions.session .default styledState.files).Listable := by
  obtain ⟨hkeys, -, hlineage, hcounts⟩ : _ ∧ _ ∧ _ ∧ _ := by simpa using session_styledState
  refine ⟨fun k hk => ?_, ?_, ?_⟩
  · rw [hkeys] at hk
    cases hk
  · rw [hlineage]
    exact ⟨by decide, fun x => Text.surrogate_notMem_ofChars x _⟩
  · rw [hcounts]
    decide

/-- The lineage in the lines for reading is not the one that the JSON document tells. -/
theorem lineage_differs_between_forms :
    let shown := { plainOptions with json := false }.run styledState
    let encoded := { plainOptions with json := true }.run styledState
    Settings.load styledState.files styledState.environment [] = .ok (.passed .default) ∧
      (plainOptions.session .default styledState.files).Listable ∧
      shown.code = 0 ∧ encoded.code = 0 ∧
      ∃ (d state : Document) (lineage : Text),
        Parser.json.parse (Encoding.encode encoded.output) = .document d ∧
        d.get? (text "state") = some (.object state) ∧
        state.get? (text "loaded") = some (.boolean true) ∧
        state.get? (text "lineage") = some (.text lineage) ∧
        text "State: serial 1, lineage " ++ lineage ∉ shown.output.splitOn (.char '\n') := by
  intro shown encoded
  have hlist := listable_styledState
  obtain ⟨-, hempty, hlineage, -⟩ : _ ∧ _ ∧ _ ∧ _ := by simpa using session_styledState
  obtain ⟨hcode, houtput⟩ : shown.code = 0 ∧ shown.output = _ := Prod.mk.inj shown_styledState
  have hencoded : encoded.code = 0 := (runWith_forms (s := styledState) hlist).1.symm.trans hcode
  refine ⟨settings_styledState, hlist, hcode, hencoded, _, _, _,
    parse_encoded settings_styledState hlist hencoded, rfl, ?_, rfl, ?_⟩
  · exact congrArg (fun b => some (Value.boolean !b)) hempty
  · rw [hlineage, houtput]
    decide

theorem summary_forms_agree_on_styled_state :
    let shown := { plainOptions with json := false }.run styledState
    let encoded := { plainOptions with json := true }.run styledState
    (∀ {settings}, Settings.load styledState.files styledState.environment [] =
        .ok (.passed settings) → (plainOptions.session settings styledState.files).Listable) ∧
      shown.code = encoded.code ∧ shown.errors = encoded.errors ∧ shown.crash = encoded.crash ∧
      shown.code = 0 ∧ ∃ (d state : Document) (templates : List Text) (count : Nat) (loaded : Bool)
        (serial : Int) (lineage : Text),
        Parser.json.parse (Encoding.encode encoded.output) = .document d ∧
        d.get? (text "templates") = some (.list (templates.map .text)) ∧
        d.get? (text "tfvars_count") = some (.integer count) ∧
        d.get? (text "state") = some (.object state) ∧
        state.get? (text "loaded") = some (.boolean loaded) ∧
        state.get? (text "serial") = some (.integer serial) ∧
        state.get? (text "lineage") = some (.text lineage) ∧
        shown.output.splitOn (.char '\n') =
          [text "Templates: " ++ Text.ofChars (natDigits templates.length)]
            ++ templates.map (fun k => text "  - " ++ k.unstyled)
            ++ [text "Tfvars: " ++ Text.ofChars (natDigits count),
              if loaded then text "State: serial " ++ Text.ofChars (intDigits serial)
                ++ text ", lineage " ++ lineage.unstyled
              else text "State: none",
              []] := by
  intro shown encoded
  have hlist : ∀ {settings}, Settings.load styledState.files styledState.environment [] =
      .ok (.passed settings) → (plainOptions.session settings styledState.files).Listable := by
    intro settings hload
    cases settings_styledState.symm.trans hload
    exact listable_styledState
  obtain ⟨hcode, herrors, hcrash, hforms⟩ := summary_forms_agree hlist
  have hzero : shown.code = 0 := (Prod.mk.inj shown_styledState).1
  exact ⟨hlist, hcode, herrors, hcrash, hzero, hforms hzero⟩

end LoadOptions

end Terraload
