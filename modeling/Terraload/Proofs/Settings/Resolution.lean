import Mathlib.Data.List.Nodup
import Terraload.Proofs.Settings.Origin
/-!
Settings field by field. Each field takes the value of the first source that has one, whatever the
sources have for the others, and settings are made where all these values are right for their
fields. Where some are not, each of these is reported once, in the order of the fields. What has
another name is looked at by no field.
-/
namespace Terraload

namespace Settings

inductive Field
  | debug
  | templateExtension
  | moduleDir
  | environmentFile
  | localStatePath
  | workspaceStateDir
  | remoteStatePath
  deriving DecidableEq

namespace Field

def all : List Field :=
  [.debug, .templateExtension, .moduleDir, .environmentFile, .localStatePath, .workspaceStateDir,
    .remoteStatePath]

theorem mem_all (f : Field) : f ∈ all := by cases f <;> decide

def name : Field → String
  | .debug => "debug"
  | .templateExtension => "template_extension"
  | .moduleDir => "module_dir"
  | .environmentFile => "environment_file"
  | .localStatePath => "local_state_path"
  | .workspaceStateDir => "workspace_state_dir"
  | .remoteStatePath => "remote_state_path"

def get (s : Settings) : Field → Value
  | .debug => .boolean s.debug
  | .templateExtension => .text s.templateExtension
  | .moduleDir => .text s.moduleDir
  | .environmentFile => .text s.environmentFile
  | .localStatePath => .text s.localStatePath
  | .workspaceStateDir => .text s.workspaceStateDir
  | .remoteStatePath => .text s.remoteStatePath

def check : Field → Check Value
  | .debug => fun v => (Check.boolean v).map .boolean
  | .templateExtension => fun v => (Check.nonEmptyString v).map .text
  | _ => fun v => (Check.string v).map .text

/-- What a value means to a field, if it is right for it: to the first field what it says of being
true, to the extension a text of characters that is not empty, and to the others any text. -/
def Reads : Field → Value → Value → Prop
  | .debug, v, x => ∃ b, Check.boolean v = .passed b ∧ x = .boolean b
  | .templateExtension, v, x => x = v ∧ ∃ cs, cs ≠ [] ∧ v = .text (.ofChars cs)
  | _, v, x => x = v ∧ ∃ t, v = .text t

def Valid (f : Field) (v : Value) : Prop := ∃ x, f.Reads v x

def Takes (f : Field) : Option Value → Value → Prop
  | some v, x => f.Reads v x
  | none, x => x = get default f

variable {f : Field} {v x : Value}

theorem map_string_eq_passed :
    (Check.string v).map Value.text = .passed x ↔ x = v ∧ ∃ t, v = .text t := by
  rw [Verdict.map_eq_passed]
  constructor
  · rintro ⟨t, ht, rfl⟩
    exact ⟨(Check.text_of_string ht).symm, t, Check.text_of_string ht⟩
  · rintro ⟨rfl, t, rfl⟩
    exact ⟨t, rfl, rfl⟩

theorem check_eq_passed : f.check v = .passed x ↔ f.Reads v x := by
  cases f with
  | debug => simp only [check, Reads, Verdict.map_eq_passed, eq_comm]
  | templateExtension =>
    rw [check, Verdict.map_eq_passed]
    constructor
    · rintro ⟨t, ht, rfl⟩
      obtain ⟨rfl, cs, hcs, rfl⟩ := Check.nonEmptyString_eq_passed.mp ht
      exact ⟨rfl, cs, hcs, rfl⟩
    · rintro ⟨rfl, cs, hcs, rfl⟩
      exact ⟨_, Check.nonEmptyString_eq_passed.mpr ⟨rfl, cs, hcs, rfl⟩, rfl⟩
  | _ => exact map_string_eq_passed

theorem check_decided (f : Field) (v : Value) : (f.check v).Decided := by
  cases f with
  | debug => exact (Check.boolean_decided v).map _
  | templateExtension => exact (Check.nonEmptyString_decided v).map _
  | _ => exact (Check.string_decided v).map _

theorem check_of_not_valid (h : ¬ f.Valid v) : ∃ k, f.check v = Check.reject k := by
  generalize hcheck : f.check v = verdict
  have hdecided := check_decided f v
  rw [hcheck] at hdecided
  cases hdecided with
  | passed x => exact absurd ⟨x, check_eq_passed.mp hcheck⟩ h
  | rejected k => exact ⟨k, rfl⟩

end Field

def Spells (target name : Text) : Prop := name.map lower = target

instance (target name : Text) : Decidable (Spells target name) :=
  inferInstanceAs (Decidable (name.map lower = target))

section Lookup

variable {α : Type} {target : Text} {ms : Members α} {a : α}

def AtMostOne (target : Text) (ms : Members α) : Prop :=
  ∀ m ∈ ms, ∀ m' ∈ ms, Spells target m.1 → Spells target m'.1 → m = m'

/-- Names that differ in more than the case of letters are spelled like nothing twice. -/
theorem atMostOne_of_nodup (h : (ms.map fun m => m.1.map lower).Nodup) : AtMostOne target ms :=
  fun _ hm _ hm' hname hname' => List.inj_on_of_nodup_map h hm hm' (hname.trans hname'.symm)

theorem lookup_eq_none : lookup target ms = none ↔ ∀ m ∈ ms, ¬ Spells target m.1 := by
  simp [lookup, Spells]

/-- What is looked up belongs to a member with the name. -/
theorem spells_of_lookup (h : lookup target ms = some a) : ∃ m ∈ ms, Spells target m.1 ∧ m.2 = a := by
  obtain ⟨m, hm, rfl⟩ := Option.map_eq_some_iff.mp h
  have hname := List.find?_some hm
  exact ⟨m, List.mem_reverse.mp (List.mem_of_find?_eq_some hm), beq_iff_eq.mp hname, rfl⟩

theorem lookup_eq_some (hone : AtMostOne target ms) {m : Text × α} (hm : m ∈ ms)
    (hname : Spells target m.1) : lookup target ms = some m.2 := by
  cases h : lookup target ms with
  | none => exact absurd hname (lookup_eq_none.mp h m hm)
  | some a =>
    obtain ⟨m', hm', hname', rfl⟩ := spells_of_lookup h
    rw [hone m hm m' hm' hname hname']

/-- Members whose names do not count may be left out. -/
theorem lookup_filter {p : Text → Bool} (hp : ∀ name, Spells target name → p name = true)
    (ms : Members α) : lookup target (ms.filter fun m => p m.1) = lookup target ms := by
  rw [lookup, lookup, ← List.filter_reverse, List.find?_filter]
  congr 2
  funext m
  rw [Bool.eq_iff_iff, decide_eq_true_iff]
  exact and_iff_right_of_imp fun hname => hp m.1 (beq_iff_eq.mp hname)

end Lookup

namespace Sources

variable {s s' : Sources} {f : Field} {given : Option Value} {v : Value}

structure Single (s : Sources) : Prop where
  overrides : ∀ f : Field, AtMostOne (text f.name) s.overrides
  environment : ∀ f : Field, AtMostOne (variablePrefix ++ text f.name) s.environment
  envFile : ∀ f : Field, AtMostOne (variablePrefix ++ text f.name) s.envFile

/-- What the sources give for a field: the override if there is one, else the variable of the
environment, else the pair of the file. A name that stands alone in the file counts as absent. -/
inductive Gives (s : Sources) (f : Field) : Option Value → Prop
  | override {m : Text × Value} (hm : m ∈ s.overrides) (hname : Spells (text f.name) m.1) :
      Gives s f (some m.2)
  | environment {m : Text × Text} (hoverrides : ∀ o ∈ s.overrides, ¬ Spells (text f.name) o.1)
      (hm : m ∈ s.environment) (hname : Spells (variablePrefix ++ text f.name) m.1) :
      Gives s f (some (.text m.2))
  | envFile {name t : Text} (hoverrides : ∀ o ∈ s.overrides, ¬ Spells (text f.name) o.1)
      (henvironment : ∀ e ∈ s.environment, ¬ Spells (variablePrefix ++ text f.name) e.1)
      (hm : (name, some t) ∈ s.envFile) (hname : Spells (variablePrefix ++ text f.name) name) :
      Gives s f (some (.text t))
  | nothing (hoverrides : ∀ o ∈ s.overrides, ¬ Spells (text f.name) o.1)
      (henvironment : ∀ e ∈ s.environment, ¬ Spells (variablePrefix ++ text f.name) e.1)
      (hfile : ∀ m ∈ s.envFile, Spells (variablePrefix ++ text f.name) m.1 → m.2 = none) :
      Gives s f none

theorem gives_value? (h : s.Single) (f : Field) : s.Gives f (s.value? (text f.name)) := by
  unfold value?
  cases hoverride : lookup (text f.name) s.overrides with
  | some v =>
    obtain ⟨m, hm, hname, rfl⟩ := spells_of_lookup hoverride
    exact .override hm hname
  | none =>
    have hoverrides := lookup_eq_none.mp hoverride
    cases hvariable : lookup (variablePrefix ++ text f.name) s.environment with
    | some t =>
      obtain ⟨m, hm, hname, rfl⟩ := spells_of_lookup hvariable
      exact .environment hoverrides hm hname
    | none =>
      have henvironment := lookup_eq_none.mp hvariable
      cases hpair : lookup (variablePrefix ++ text f.name) s.envFile with
      | none =>
        exact .nothing hoverrides henvironment fun m hm hname =>
          absurd hname (lookup_eq_none.mp hpair m hm)
      | some t? =>
        obtain ⟨m, hm, hname, rfl⟩ := spells_of_lookup hpair
        obtain ⟨name, t?⟩ := m
        cases t? with
        | some t => exact .envFile hoverrides henvironment hm hname
        | none =>
          refine .nothing hoverrides henvironment fun m' hm' hname' => ?_
          rw [h.envFile f m' hm' _ hm hname' hname]

theorem Gives.value? (hgives : s.Gives f given) (h : s.Single) :
    s.value? (text f.name) = given := by
  unfold Sources.value?
  cases hgives with
  | override hm hname => rw [lookup_eq_some (h.overrides f) hm hname]
  | environment hoverrides hm hname =>
    rw [lookup_eq_none.mpr hoverrides, lookup_eq_some (h.environment f) hm hname]
  | envFile hoverrides henvironment hm hname =>
    rw [lookup_eq_none.mpr hoverrides, lookup_eq_none.mpr henvironment,
      lookup_eq_some (h.envFile f) hm hname]
    rfl
  | nothing hoverrides henvironment hfile =>
    rw [lookup_eq_none.mpr hoverrides, lookup_eq_none.mpr henvironment]
    cases hpair : lookup (variablePrefix ++ text f.name) s.envFile with
    | none => rfl
    | some t? =>
      obtain ⟨m, hm, hname, rfl⟩ := spells_of_lookup hpair
      rw [hfile m hm hname]
      rfl

/-- Where names are not given twice, what is looked up for a field is what the sources give. -/
theorem gives_iff (h : s.Single) : s.Gives f given ↔ s.value? (text f.name) = given :=
  ⟨fun hgives => hgives.value? h, fun hvalue => hvalue ▸ gives_value? h f⟩

def slot (s : Sources) (f : Field) : Verdict Value := s.field f.name (f.get default) f.check

theorem field_map {α β : Type} (s : Sources) (name : String) (d : α) (c : Check α) (g : α → β) :
    s.field name (g d) (fun v => (c v).map g) = (s.field name d c).map g := by
  unfold field
  split
  · exact Verdict.within_map g _ _
  · rfl

theorem slot_eq_some (h : s.value? (text f.name) = some v) :
    s.slot f = (f.check v).within (.member (text f.name)) := by
  rw [slot, field, h]

theorem slot_eq_none (h : s.value? (text f.name) = none) : s.slot f = .passed (f.get default) := by
  rw [slot, field, h]

theorem takes_of_slot {x : Value} (h : s.slot f = .passed x) : f.Takes (s.value? (text f.name)) x := by
  cases hvalue : s.value? (text f.name) with
  | none =>
    rw [slot_eq_none hvalue] at h
    cases h
    rfl
  | some v =>
    rw [slot_eq_some hvalue, Verdict.within_eq_passed] at h
    exact Field.check_eq_passed.mp h

/-- The verdict on a field is that it is right, or one problem with the value that is given for it. -/
theorem slot_cases (s : Sources) (f : Field) :
    ((s.slot f).passes = true ∧ (s.slot f).problems = [] ∧
        ∀ v, s.value? (text f.name) = some v → f.Valid v) ∨
      (s.slot f).passes = false ∧ ∃ v k, s.value? (text f.name) = some v ∧ ¬ f.Valid v ∧
        f.check v = Check.reject k ∧ (s.slot f).problems = [⟨[.member (text f.name)], k⟩] := by
  cases hvalue : s.value? (text f.name) with
  | none =>
    rw [slot_eq_none hvalue]
    exact .inl ⟨rfl, rfl, fun v hv => by cases hv⟩
  | some v =>
    rw [slot_eq_some hvalue]
    by_cases hvalid : f.Valid v
    · obtain ⟨x, hx⟩ := hvalid
      rw [Field.check_eq_passed.mpr hx]
      refine .inl ⟨rfl, rfl, fun w hw => ?_⟩
      cases hw
      exact ⟨x, hx⟩
    · obtain ⟨k, hk⟩ := Field.check_of_not_valid hvalid
      exact .inr ⟨by rw [hk]; rfl, v, k, rfl, hvalid, hk, by rw [hk]; rfl⟩

theorem passes_resolve (s : Sources) :
    (resolve s).passes = Field.all.all fun f => (s.slot f).passes := by
  simp only [resolve, Field.all, slot, Field.name, Field.get, Field.check, field_map,
    Verdict.passes_ap, Verdict.passes_map, List.all_cons, List.all_nil, Bool.and_true,
    Bool.and_assoc]

theorem problems_resolve (s : Sources) :
    (resolve s).problems = Field.all.flatMap fun f => (s.slot f).problems := by
  simp only [resolve, Field.all, slot, Field.name, Field.get, Field.check, field_map,
    Verdict.problems_ap, Verdict.problems_map, List.flatMap_cons, List.flatMap_nil,
    List.append_nil, List.append_assoc]

theorem slot_of_resolve {settings : Settings} (h : resolve s = .passed settings) (f : Field) :
    s.slot f = .passed (f.get settings) := by
  simp only [resolve, Verdict.ap_eq_passed, Verdict.map_eq_passed] at h
  obtain ⟨_, _, ⟨_, _, ⟨_, _, ⟨_, _, ⟨_, _, ⟨_, _, ⟨_, hdebug, rfl⟩, hextension, rfl⟩, hmodules,
    rfl⟩, henvironment, rfl⟩, hlocal, rfl⟩, hworkspaces, rfl⟩, hremote, rfl⟩ := h
  cases f with
  | debug => exact (field_map ..).trans (Verdict.map_passed hdebug)
  | templateExtension => exact (field_map ..).trans (Verdict.map_passed hextension)
  | moduleDir => exact (field_map ..).trans (Verdict.map_passed hmodules)
  | environmentFile => exact (field_map ..).trans (Verdict.map_passed henvironment)
  | localStatePath => exact (field_map ..).trans (Verdict.map_passed hlocal)
  | workspaceStateDir => exact (field_map ..).trans (Verdict.map_passed hworkspaces)
  | remoteStatePath => exact (field_map ..).trans (Verdict.map_passed hremote)

def fieldName (front name : Text) : Bool :=
  Field.all.any fun f => decide (Spells (front ++ text f.name) name)

def known (s : Sources) : Sources where
  overrides := s.overrides.filter fun m => fieldName [] m.1
  environment := s.environment.filter fun m => fieldName variablePrefix m.1
  envFile := s.envFile.filter fun m => fieldName variablePrefix m.1

theorem fieldName_of_spells {front name : Text} (h : Spells (front ++ text f.name) name) :
    fieldName front name = true :=
  List.any_eq_true.mpr ⟨f, f.mem_all, decide_eq_true h⟩

theorem value?_known (s : Sources) (f : Field) :
    s.known.value? (text f.name) = s.value? (text f.name) := by
  have hname (name : Text) (h : Spells (text f.name) name) : fieldName [] name = true :=
    fieldName_of_spells h
  have hoverrides : lookup (text f.name) s.known.overrides = lookup (text f.name) s.overrides :=
    lookup_filter hname _
  have henvironment : lookup (variablePrefix ++ text f.name) s.known.environment =
      lookup (variablePrefix ++ text f.name) s.environment :=
    lookup_filter (fun _ => fieldName_of_spells) _
  have hfile : lookup (variablePrefix ++ text f.name) s.known.envFile =
      lookup (variablePrefix ++ text f.name) s.envFile :=
    lookup_filter (fun _ => fieldName_of_spells) _
  rw [value?, value?, hoverrides, henvironment, hfile]

theorem resolve_congr (h : ∀ f : Field, s.value? (text f.name) = s'.value? (text f.name)) :
    resolve s = resolve s' := by
  have hfield {α : Type} {name : String} (hname : name ∈ Field.all.map Field.name) (d : α)
      (c : Check α) : s.field name d c = s'.field name d c := by
    obtain ⟨f, -, rfl⟩ := List.mem_map.mp hname
    rw [field, field, h f]
  simp (disch := decide) only [resolve, hfield]

theorem resolve_of_known (h : s.known = s'.known) : resolve s = resolve s' :=
  resolve_congr fun f => by rw [← value?_known s, ← value?_known s', h]

end Sources

/-- A row of results that lists, for some of the items, one result each. -/
theorem forall₂_filter_flatMap {α β : Type} {R : α → β → Prop} {p : α → Bool} {g : α → List β}
    {as : List α} (h : ∀ a ∈ as, (p a = true ∧ ∃ b, g a = [b] ∧ R a b) ∨ p a = false ∧ g a = []) :
    List.Forall₂ R (as.filter p) (as.flatMap g) := by
  induction as with
  | nil => exact .nil
  | cons a as ih =>
    obtain ⟨ha, has⟩ := List.forall_mem_cons.mp h
    obtain ⟨hp, b, hb, hab⟩ | ⟨hp, hnone⟩ := ha
    · rw [List.filter_cons_of_pos hp, List.flatMap_cons, hb]
      exact .cons hab (ih has)
    · rw [List.filter_cons_of_neg (by simp [hp]), List.flatMap_cons, hnone]
      exact ih has

structure Resolution (sources : Sources) (verdict : Verdict Settings) : Prop where
  /-- For each field the sources give one value, or nothing. -/
  chosen (f : Field) : ∃! given, sources.Gives f given
  /-- Settings are made where all values that are given are right. -/
  passes : (∃ settings, verdict = .passed settings) ↔ ∀ f v, sources.Gives f (some v) → f.Valid v
  /-- Each field takes what is given for it, or its default. -/
  takes (settings : Settings) (h : verdict = .passed settings) :
    settings.templateExtension ≠ [] ∧
      ∀ f given, sources.Gives f given → f.Takes given (f.get settings)
  /-- Each field whose value is not right is reported once, and no other is. -/
  reports (problems : List Problem) (h : verdict = .failed problems) :
    ∃ fields : List Field, fields.Sublist Field.all ∧
      (∀ f, f ∈ fields ↔ ∃ v, sources.Gives f (some v) ∧ ¬ f.Valid v) ∧
      List.Forall₂ (fun f p => ∃ v k, sources.Gives f (some v) ∧ f.check v = Check.reject k ∧
        p = ⟨[.member (text f.name)], k⟩) fields problems
  /-- Sources that differ in other names alone come to the same. -/
  ignores (others : Sources) (h : others.known = sources.known) : resolve others = verdict

section

variable {sources : Sources} {settings : Settings} {problems : List Problem}

theorem passes_resolve_iff (hsingle : sources.Single) :
    (∃ settings, resolve sources = .passed settings) ↔
      ∀ f v, sources.Gives f (some v) → Field.Valid f v := by
  rw [← Verdict.passes_iff, Sources.passes_resolve, List.all_eq_true]
  refine forall_congr' fun f => (forall_prop_of_true f.mem_all).trans ?_
  simp only [Sources.gives_iff hsingle]
  obtain ⟨hpasses, -, hvalid⟩ | ⟨hfails, v, k, hvalue, hinvalid, -⟩ := sources.slot_cases f
  · exact iff_of_true hpasses hvalid
  · exact iff_of_false (by rw [hfails]; exact Bool.false_ne_true) fun h => hinvalid (h v hvalue)

theorem extension_ne_nil (h : resolve sources = .passed settings) :
    settings.templateExtension ≠ [] := by
  have htakes := Sources.takes_of_slot (Sources.slot_of_resolve h .templateExtension)
  cases hvalue : sources.value? (text Field.templateExtension.name) with
  | none =>
    rw [hvalue] at htakes
    rw [Value.text.inj htakes]
    decide
  | some v =>
    rw [hvalue] at htakes
    obtain ⟨hv, cs, hcs, rfl⟩ := htakes
    rw [Value.text.inj hv]
    exact fun hnil => hcs (List.map_eq_nil_iff.mp hnil)

theorem problems_of_resolve (hsingle : sources.Single) (h : resolve sources = .failed problems) :
    ∃ fields : List Field, fields.Sublist Field.all ∧
      (∀ f, f ∈ fields ↔ ∃ v, sources.Gives f (some v) ∧ ¬ f.Valid v) ∧
      List.Forall₂ (fun f p => ∃ v k, sources.Gives f (some v) ∧ f.check v = Check.reject k ∧
        p = ⟨[.member (text f.name)], k⟩) fields problems := by
  have hproblems : problems = Field.all.flatMap fun f => (sources.slot f).problems := by
    rw [← Sources.problems_resolve, h, Verdict.problems]
  refine ⟨Field.all.filter fun f => !(sources.slot f).passes, List.filter_sublist, fun f => ?_, ?_⟩
  · rw [List.mem_filter, and_iff_right f.mem_all]
    simp only [Sources.gives_iff hsingle]
    obtain ⟨hpasses, -, hvalid⟩ | ⟨hfails, v, k, hvalue, hinvalid, -⟩ := sources.slot_cases f
    · refine iff_of_false (by simp [hpasses]) ?_
      rintro ⟨v, hvalue, hinvalid⟩
      exact hinvalid (hvalid v hvalue)
    · exact iff_of_true (by simp [hfails]) ⟨v, hvalue, hinvalid⟩
  · rw [hproblems]
    refine forall₂_filter_flatMap fun f _ => ?_
    obtain ⟨hpasses, hnone, -⟩ | ⟨hfails, v, k, hvalue, -, hk, hone⟩ := sources.slot_cases f
    · exact .inr ⟨by rw [hpasses]; rfl, hnone⟩
    · exact .inl ⟨by rw [hfails]; rfl, _, hone, v, k, (Sources.gives_iff hsingle).mpr hvalue, hk, rfl⟩

theorem resolve_resolution (hsingle : sources.Single) : Resolution sources (resolve sources) where
  chosen f := ⟨_, Sources.gives_value? hsingle f, fun _ h => (h.value? hsingle).symm⟩
  passes := passes_resolve_iff hsingle
  takes settings h := by
    refine ⟨extension_ne_nil h, fun f given hgives => ?_⟩
    rw [← hgives.value? hsingle]
    exact Sources.takes_of_slot (Sources.slot_of_resolve h f)
  reports _ h := problems_of_resolve hsingle h
  ignores _ h := Sources.resolve_of_known h

end

/-- Settings from overrides, the environment and the pairs that the file `.env` binds, with at most
one name for a field in each of the three: they are resolved field by field. -/
theorem load_resolution {fs : FileSystem} {environment : Members Text} {overrides : Members Value}
    {pairs : Members (Option Text)} (hpairs : readEnvFile fs environment = .ok pairs)
    (hsingle : Sources.Single ⟨overrides, environment, pairs⟩) :
    ∃ verdict, load fs environment overrides = .ok verdict ∧
      Resolution ⟨overrides, environment, pairs⟩ verdict := by
  refine ⟨resolve ⟨overrides, environment, pairs⟩, ?_, resolve_resolution hsingle⟩
  rw [load, hpairs]
  rfl

/-- An override hides a variable that is not right, a variable hides a pair, and a name that stands
alone in the file leaves its field to the default. The two values that are given and are not right
are reported. -/
theorem load_resolution_of_three_sources :
    let fs := (FileSystem.empty []).write envFileName (Encoding.encode (text
      "TFLINT_LOCAL_STATE_PATH\nTFLINT_MODULE_DIR=m\nTflint_Template_Extension=\nOTHER=1\n"))
    let environment := [(text "TFLINT_DEBUG", text "maybe"), (text "tflint_module_dir", text "mods")]
    let overrides := [(text "Debug", .text (text "yes")), (text "remote_state_path", .null)]
    let pairs := [(text "TFLINT_LOCAL_STATE_PATH", none), (text "TFLINT_MODULE_DIR", some (text "m")),
      (text "Tflint_Template_Extension", some []), (text "OTHER", some (text "1"))]
    let verdict := .failed [⟨[.member (text "template_extension")], .emptyString⟩,
      ⟨[.member (text "remote_state_path")], .notAString⟩]
    readEnvFile fs environment = .ok pairs ∧ Sources.Single ⟨overrides, environment, pairs⟩ ∧
      load fs environment overrides = .ok verdict ∧
      Resolution ⟨overrides, environment, pairs⟩ verdict := by
  intro fs environment overrides pairs verdict
  have hpairs : readEnvFile fs environment = .ok pairs := by
    subst fs environment pairs
    decide +kernel
  have hsingle : Sources.Single ⟨overrides, environment, pairs⟩ :=
    ⟨fun _ => atMostOne_of_nodup (by decide), fun _ => atMostOne_of_nodup (by decide),
      fun _ => atMostOne_of_nodup (by decide)⟩
  have hload : load fs environment overrides = .ok verdict := by
    rw [load, hpairs]
    subst overrides environment pairs verdict
    decide +kernel
  obtain ⟨found, hfound, hresolution⟩ := load_resolution hpairs hsingle
  obtain rfl : found = verdict := Except.ok.inj (hfound.symm.trans hload)
  exact ⟨hpairs, hsingle, hload, hresolution⟩

/-- An override in capitals counts, though no field has its name. -/
theorem override_spelled_otherwise_counts :
    let fs := FileSystem.empty []
    let overrides := [(text "DEBUG", Value.boolean true)]
    (∀ f ∈ Field.all, text f.name ∉ Members.names overrides) ∧
      load fs [] [] = .ok (.passed default) ∧
      load fs [] overrides = .ok (.passed { default with debug := true }) := by
  intro fs overrides
  refine ⟨by decide, ?_, ?_⟩
  · decide +kernel
  · decide +kernel

end Settings

end Terraload
