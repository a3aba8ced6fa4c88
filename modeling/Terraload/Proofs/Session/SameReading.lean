import Terraload.Proofs.FileSystem.Cleaning
import Terraload.Proofs.Parser.Contract
import Terraload.Proofs.Parser.Fallback
import Terraload.Proofs.Session.FirstFailure
/-!
A file that is read as a template and as an override file. A template is found as the match of its
own path, and the native syntax alone can make a document of it; an override file is looked for by
its path, and the JSON variant stands in where the native syntax rejects it. Both find the same file
and read the same bytes.
-/
namespace Terraload

open Terraload.Path Terraload.Parser

variable {config : Config} {fs : FileSystem} {path : Text} {place : Place} {bytes : Bytes}

theorem FileSystem.linkExists?_of_locate {found : Place × Node}
    (h : fs.locate true path = .ok found) : fs.linkExists? path = true := by
  obtain ⟨hne, hnul, hshort, hwalked⟩ := locate_eq_ok.mp h
  obtain ⟨found', hwalked'⟩ := hwalked.exists_unfollowed
  rw [linkExists?, locate_eq_ok.mpr ⟨hne, hnul, hshort, hwalked'⟩]
  rfl

/-- A path without wildcards that leads to a file is its own match, and no other path is. -/
theorem Config.find_of_file (hplain : Wildcard.isMagic path = false)
    (h : fs.locate true path = .ok (place, .file bytes)) : config.find fs false path = .ok [path] := by
  have hpart : (split path).2.isEmpty = false :=
    List.isEmpty_eq_false_iff.mpr (FileSystem.part_ne_nil h)
  have hlevels : Glob.levels fs false path = 0 := by simp [Glob.levels, Glob.levelsFrom, hplain]
  have hlisted : Glob.unlisted? fs path = none := by simp [Glob.unlisted?, Glob.start?, hplain]
  have hsearch : Glob.search fs false (path.length + 1) false path = [path] := by
    rw [Glob.search_plain _ hplain, hpart, if_neg Bool.false_ne_true,
      FileSystem.linkExists?_of_locate h, if_pos rfl]
  simp [find_eq_ok, hlevels, Glob.paths, hlisted, hsearch]

namespace Session

theorem loadTemplate_of_stored {r : LoadedFile} (hpaths : config.find fs false r.path = .ok [r.path])
    (h : r.Stored config fs) (s : Session) : s.loadTemplate config fs r.path =
      ⟨(Edit.template (templateKey r.path) r.document r.content).apply s,
        storedLog (templateKey r.path) r, none⟩ := by
  simp only [loadTemplate, hpaths, List.map_cons, List.map_nil, loadFiles, loadFile_of_stored h,
    Step.after, List.append_nil]
  rfl

theorem loadTemplate_of_fails {f : Failure} (hpaths : config.find fs false path = .ok [path])
    (h : Fails config fs path f) (s : Session) :
    s.loadTemplate config fs path = ⟨s, failedLog path (templateKey path) f, some f⟩ := by
  simp only [loadTemplate, hpaths, List.map_cons, List.map_nil, loadFiles, loadFile_of_fails h]

def overridesLog (log : List LogEntry) : List LogEntry := .of .info "loading_tfvars" [] :: log

theorem loadTfvars_of_fares {edits : List Edit} {log : List LogEntry} {failure : Option Failure}
    (h : OverrideFares config fs path edits log failure) (s : Session) :
    s.loadTfvars config fs [path] = ⟨edits.foldl Edit.apply s, overridesLog log, failure⟩ := by
  rw [loadTfvars, loadTfvarsFiles, h.run_eq]
  cases failure with
  | some f => rfl
  | none => simp only [loadTfvarsFiles, Step.after, List.append_nil]; rfl

def unparsable (path reason : Text) : Failure :=
  .load (.unparsable path reason (some ⟨hclName, reason⟩))

def unstored (path : Text) (f : Failure) (s : Session) : Step :=
  ⟨s, failedLog path (templateKey path) f, some f⟩

inductive ReadBoth (path : Text) (bytes : Bytes) (s t : Session) : Step → Step → Prop
  | stored {d : Document} (hd : hcl.parse bytes = .document d) :
      ReadBoth path bytes s t
        ⟨(Edit.template (templateKey path) d bytes).apply s,
          storedLog (templateKey path) ⟨path, d, bytes⟩, none⟩
        ⟨(Edit.tfvarsLoaded d).apply t, overridesLog [overrideOpening path], none⟩
  | fallback {reason : Text} {d : Document} (hr : hcl.parse bytes = .rejected ⟨hclName, reason⟩)
      (hd : json.parse bytes = .document d) :
      ReadBoth path bytes s t (unstored path (unparsable path reason) s)
        ⟨(Edit.tfvarsLoaded d).apply t,
          overridesLog [overrideOpening path, fallbackEntry path [⟨hclName, reason⟩]], none⟩
  | skipped {reason reason' : Text} (hr : hcl.parse bytes = .rejected ⟨hclName, reason⟩)
      (hr' : json.parse bytes = .rejected ⟨jsonName, reason'⟩) :
      ReadBoth path bytes s t (unstored path (unparsable path reason) s)
        ⟨Edit.tfvarsSkipped.apply t,
          overridesLog [overrideOpening path, rejectedEntry path ⟨hclName, reason⟩,
            rejectedEntry path ⟨jsonName, reason'⟩], none⟩
  | brokenBehind {reason : Text} {b : Breakdown}
      (hr : hcl.parse bytes = .rejected ⟨hclName, reason⟩) (hb : json.parse bytes = .broken b) :
      ReadBoth path bytes s t (unstored path (unparsable path reason) s)
        ⟨t, overridesLog [overrideOpening path], some (.broken b)⟩
  | broken {b : Breakdown} (hb : hcl.parse bytes = .broken b) :
      ReadBoth path bytes s t (unstored path (.broken b) s)
        ⟨t, overridesLog [overrideOpening path], some (.broken b)⟩

theorem readBoth (hplain : Wildcard.isMagic path = false)
    (hfile : fs.locate true path = .ok (place, .file bytes)) (settings : Settings) (s t : Session) :
    ReadBoth path bytes s t (s.loadTemplate (.standard settings) fs path)
      (t.loadTfvars (.standard settings) fs [path]) := by
  have hpaths : (Config.standard settings).find fs false path = .ok [path] :=
    Config.find_of_file hplain hfile
  have hread : fs.read path = .ok bytes := FileSystem.read_of_locate hfile
  have hthere : fs.exists? path = true := FileSystem.exists?_eq_true.mpr ⟨_, hfile⟩
  obtain (⟨d, hd⟩ | ⟨reason, hr⟩) | ⟨b, hb⟩ := hcl_keeps_or_broken none bytes
  · have htried : Tried bytes ([] ++ hcl :: [json]) _ := .document .nil hd
    rw [loadTemplate_of_stored (r := ⟨path, d, bytes⟩) hpaths ⟨hread, hd⟩,
      loadTfvars_of_fares (.loaded hthere hread htried)]
    exact .stored hd
  · have hfails : Fails (.standard settings) fs path (unparsable path reason) :=
      .rejected (r := ⟨hclName, reason⟩) hread hr
    have hall : AllReject bytes [hcl] [⟨hclName, reason⟩] := .cons hr .nil
    rw [loadTemplate_of_fails hpaths hfails]
    obtain (⟨d, hd⟩ | ⟨reason', hr'⟩) | ⟨b, hb⟩ := json_keeps_or_broken Json.Rules.lenient.depth bytes
    · have htried : Tried bytes ([hcl] ++ json :: []) _ := .document hall hd
      rw [loadTfvars_of_fares (.loaded hthere hread htried)]
      exact .fallback hr hd
    · have htried : Tried bytes [hcl, json] _ := .rejected (.cons hr (.cons hr' .nil))
      rw [loadTfvars_of_fares (.rejected hthere hread htried)]
      exact .skipped hr hr'
    · have htried : Tried bytes ([hcl] ++ json :: []) _ := .broken hall hb
      rw [loadTfvars_of_fares (.broken hthere hread htried)]
      exact .brokenBehind hr hb
  · have hfails : Fails (.standard settings) fs path (.broken b) := .broken hread hb
    have htried : Tried bytes ([] ++ hcl :: [json]) _ := .broken .nil hb
    rw [loadTemplate_of_fails hpaths hfails,
      loadTfvars_of_fares (.broken hthere hread htried)]
    exact .broken hb

/-- A path without wildcards that leads to a file is loaded as a template and as an override file,
over links and from any two sessions. If the template is stored, the override file gives an equal
document, without a fallback and without a failure. If the template is rejected, and the JSON variant
keeps its promise, the override file gives the document of the JSON variant, which is told to be a
fallback, or is passed over with the reasons of both syntaxes, that of the template first. What is
left is that both break off alike. No file is both stored and taken by the fallback. -/
theorem reads_alike (hplain : Wildcard.isMagic path = false)
    (hfile : fs.locate true path = .ok (place, .file bytes)) (settings : Settings) (s t : Session) :
    let template := s.loadTemplate (.standard settings) fs path
    let override := t.loadTfvars (.standard settings) fs [path]
    (template.failure = none → ∃ d,
      template.session = (Edit.template (templateKey path) d bytes).apply s ∧
      override = ⟨(Edit.tfvarsLoaded d).apply t, overridesLog [overrideOpening path], none⟩) ∧
    (∀ path' r cause, template.failure = some (.load (.unparsable path' r cause)) →
      (∀ b, json.parse bytes ≠ .broken b) → template.session = s ∧
      ((∃ d, json.parse bytes = .document d ∧ override = ⟨(Edit.tfvarsLoaded d).apply t,
          overridesLog [overrideOpening path, fallbackEntry path [⟨hclName, r⟩]], none⟩) ∨
        ∃ r', json.parse bytes = .rejected ⟨jsonName, r'⟩ ∧ override = ⟨Edit.tfvarsSkipped.apply t,
          overridesLog [overrideOpening path, rejectedEntry path ⟨hclName, r⟩,
            rejectedEntry path ⟨jsonName, r'⟩], none⟩)) ∧
    (template.failure = none ∨ (∃ r, template.failure = some (unparsable path r)) ∨
      ∃ b, template.failure = some (.broken b) ∧ override.failure = some (.broken b)) ∧
    ¬ (template.failure = none ∧
      ∃ e ∈ override.log, e.event = text "tfvars_parsed_with_fallback") := by
  intro template override
  have hboth : ReadBoth path bytes s t template override := readBoth hplain hfile settings s t
  clear_value template override
  refine ⟨fun hnone => ?stored, fun path' r cause hfailure hjson => ?rejected, ?classes, ?exclusive⟩
  case stored =>
    cases hboth with
    | @stored d => exact ⟨d, rfl, rfl⟩
    | fallback | skipped | brokenBehind | broken => cases hnone
  case rejected =>
    cases hboth with
    | stored | broken => cases hfailure
    | fallback hr hd =>
      cases hfailure
      exact ⟨rfl, .inl ⟨_, hd, rfl⟩⟩
    | skipped hr hr' =>
      cases hfailure
      exact ⟨rfl, .inr ⟨_, hr', rfl⟩⟩
    | brokenBehind hr hb => exact absurd hb (hjson _)
  case classes =>
    cases hboth with
    | stored => exact .inl rfl
    | fallback | skipped | brokenBehind => exact .inr (.inl ⟨_, rfl⟩)
    | broken => exact .inr (.inr ⟨_, rfl, rfl⟩)
  case exclusive =>
    rintro ⟨hnone, e, he, hevent⟩
    cases hboth with
    | stored =>
      have hopening : ∀ e ∈ overridesLog [overrideOpening path],
          e.event ≠ text "tfvars_parsed_with_fallback" := by
        simp [overridesLog, overrideOpening, overrideEntry, LogEntry.of, text_inj]
      exact hopening e he hevent
    | fallback | skipped | brokenBehind | broken => cases hnone

def jsonBytes : Bytes := Encoding.encode (text "\x7b\"a\": 1\x7d")
def linkedJson : FileSystem :=
  ((FileSystem.empty []).write (text "d/x") jsonBytes).link (text "l.tfvars") (text "d/x")

theorem locate_linkedJson : linkedJson.locate true (text "./l.tfvars") =
    .ok ([text "d", text "x"], .file jsonBytes) := by decide +kernel

theorem document_jsonBytes : json.parse jsonBytes = .document [(text "a", .integer 1)] := by decide +kernel

theorem fails_linkedJson : Fails (.standard .default) linkedJson (text "./l.tfvars")
    (unparsable (text "./l.tfvars") (text "syntax error")) := by
  have hrejected : (Config.standard .default).templateParser.parse jsonBytes =
      .rejected ⟨hclName, text "syntax error"⟩ := by decide +kernel
  exact .rejected (FileSystem.read_of_locate locate_linkedJson) hrejected

theorem reads_alike_of_linked_json :
    Wildcard.isMagic (text "./l.tfvars") = false ∧
      linkedJson.locate true (text "./l.tfvars") =
        .ok ([text "d", text "x"], .file jsonBytes) ∧
      (empty.loadTemplate (.standard .default) linkedJson (text "./l.tfvars")).failure =
        some (unparsable (text "./l.tfvars") (text "syntax error")) ∧
      empty.loadTfvars (.standard .default) linkedJson [text "./l.tfvars"] =
        ⟨(Edit.tfvarsLoaded [(text "a", .integer 1)]).apply empty,
          overridesLog [overrideOpening (text "./l.tfvars"),
            fallbackEntry (text "./l.tfvars") [⟨hclName, text "syntax error"⟩]], none⟩ := by
  have hplain : Wildcard.isMagic (text "./l.tfvars") = false := by decide
  have hpaths : (Config.standard .default).find linkedJson false (text "./l.tfvars") =
      .ok [text "./l.tfvars"] := Config.find_of_file hplain locate_linkedJson
  have hfailure : (empty.loadTemplate (.standard .default) linkedJson (text "./l.tfvars")).failure =
      some (unparsable (text "./l.tfvars") (text "syntax error")) := by
    rw [loadTemplate_of_fails hpaths fails_linkedJson]
  have hkept (b : Breakdown) : json.parse jsonBytes ≠ .broken b := by simp [document_jsonBytes]
  obtain ⟨-, hrejected, -⟩ := reads_alike hplain locate_linkedJson .default empty empty
  obtain ⟨-, ⟨d, hd, hoverride⟩ | ⟨r', hr', -⟩⟩ := hrejected _ _ _ hfailure hkept
  · rw [document_jsonBytes] at hd
    cases hd
    exact ⟨hplain, locate_linkedJson, hfailure, hoverride⟩
  · rw [document_jsonBytes] at hr'
    cases hr'

end Session

end Terraload
