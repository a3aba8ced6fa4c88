import Terraload.Proofs.FileSystem.Relative
import Terraload.Proofs.Session.TemplateKey
import Terraload.Proofs.Settings.Origin
import Terraload.Proofs.Wildcard
/-!
What the keys of a session are made of: names in the file systems it was loaded from, what its calls
were given, and the settings. A surrogate that stands in none of them stands in no key.
-/
namespace Terraload

open Terraload.Path

variable {x : Surrogate} {p d key source : Text} {settings : Settings}

theorem surrogate_ne_slash : CodePoint.surrogate x ≠ slash := CodePoint.noConfusion

theorem surrogate_normalizeKey (h : .surrogate x ∉ p) : .surrogate x ∉ normalizeKey p := by
  simp only [normalizeKey, List.mem_map, not_exists, not_and]
  intro c hc
  split
  · exact CodePoint.noConfusion
  · rintro rfl
    exact h hc

theorem surrogate_templateKey (h : .surrogate x ∉ p) : .surrogate x ∉ Session.templateKey p :=
  surrogate_normalizeKey
    (notMem_normalize surrogate_ne_slash (Text.surrogate_notMem_ofChars x _) h)

theorem surrogate_moduleFileKey (hsource : .surrogate x ∉ source) (hp : .surrogate x ∉ p) (d : Text) :
    .surrogate x ∉ Session.moduleFileKey d source p := by
  rw [Session.moduleFileKey, List.mem_append, not_or]
  exact ⟨hsource, fun h => surrogate_normalizeKey hp ((Text.eraseFirst_sublist _ _).mem h)⟩

theorem surrogate_escape (h : .surrogate x ∉ p) : .surrogate x ∉ Wildcard.escape p :=
  Wildcard.notMem_escape CodePoint.noConfusion CodePoint.noConfusion h

/-- A code point stands in nothing that keys are made of. The names of state and of override files
are no part of any key. -/
def Call.Without (a : CodePoint) : Call → Prop
  | .template p => a ∉ p
  | .directory d => a ∉ d
  | .moduleFiles key source => a ∉ key ∧ a ∉ source
  | .state | .tfvars _ => True

theorem surrogate_directoryPattern (hsettings : settings.Without (.surrogate x))
    (hd : .surrogate x ∉ d) : .surrogate x ∉ Session.directoryPattern settings d := by
  have hclean : .surrogate x ∉ normalize d :=
    notMem_normalize surrogate_ne_slash (Text.surrogate_notMem_ofChars x _) hd
  refine notMem_join surrogate_ne_slash (surrogate_escape hclean) ?_
  rw [List.mem_append, not_or]
  exact ⟨Text.surrogate_notMem_ofChars x _, hsettings.extension⟩

theorem surrogate_modulePattern (hsettings : settings.Without (.surrogate x))
    (hkey : .surrogate x ∉ key) :
    .surrogate x ∉ Session.modulePattern settings (settings.modulePath key) := by
  have hpath : .surrogate x ∉ settings.modulePath key := by
    simp only [Settings.modulePath, List.mem_append, not_or]
    exact ⟨⟨hsettings.modules, Text.surrogate_notMem_ofChars x _⟩, hkey⟩
  simp only [Session.modulePattern, List.mem_append, not_or]
  exact ⟨⟨surrogate_escape hpath, Text.surrogate_notMem_ofChars x _⟩, hsettings.extension⟩

theorem Call.Without.pattern {c : Call} (h : c.Without (.surrogate x))
    (hsettings : settings.Without (.surrogate x)) (hp : c.templatePattern? settings = some p) :
    .surrogate x ∉ p := by
  cases c with
  | template p' =>
    cases hp
    exact h
  | directory d =>
    cases hp
    exact surrogate_directoryPattern hsettings h
  | _ => cases hp

/-- The key that an edit stores a file under. -/
theorem Edit.From.key_without {config : Config} {fs : FileSystem} {c : Call} {e : Edit}
    (h : Edit.From config fs c e) (hfs : fs.Without (.surrogate x)) (hc : c.Without (.surrogate x))
    (hsettings : config.settings.Without (.surrogate x)) (hkey : e.key? = some key) :
    .surrogate x ∉ key := by
  cases h with
  | template hpattern hps hpath _ =>
    cases hkey
    exact surrogate_templateKey
      (Glob.paths_without hfs surrogate_ne_slash (hc.pattern hsettings hpattern) hps hpath)
  | moduleFile hps hpath _ =>
    cases hkey
    exact surrogate_moduleFileKey hc.2 (Glob.paths_without hfs surrogate_ne_slash
      (surrogate_modulePattern hsettings hc.1) hps hpath) _
  | _ => cases hkey

/-- Over a history no surrogate comes into a key that does not stand in what keys are made of. -/
theorem Session.replay_keys_without {config : Config} {history : List Event}
    (hfiles : ∀ e ∈ history, e.files.Without (.surrogate x))
    (hcalls : ∀ e ∈ history, e.call.Without (.surrogate x))
    (hsettings : config.settings.Without (.surrogate x))
    (hkey : key ∈ (replay config history empty).store.keys) : .surrogate x ∉ key := by
  obtain hkey | ⟨event, hevent, e, he, hkey⟩ := mem_keys_replay hkey
  · rw [Store.mem_keys] at hkey
    cases hkey
  · exact he.key_without (hfiles _ hevent) (hcalls _ hevent) hsettings hkey

end Terraload
