import Terraload.Command.Run
import Terraload.Proofs.Command.Reading
import Terraload.Proofs.Text
/-!
Modules as values of an option. A value is a key and a source with an equals sign between them, and
can be parted in one way at most. Values are parted one by one, up to the first that cannot be, which
ends the run before anything is loaded.
-/
namespace Terraload

namespace LoadOptions

variable {m : Text × Text} {ms : List (Text × Text)} {v : Text} {values : List Text} {e : UsageError}

structure Separable (m : Text × Text) : Prop where
  key_ne_nil : m.1 ≠ []
  key_free : .char '=' ∉ m.1
  source_ne_nil : m.2 ≠ []

def joined (m : Text × Text) : Text := m.1 ++ .char '=' :: m.2

theorem module?_eq_some_iff : module? v = some m ↔ Separable m ∧ joined m = v := by
  constructor
  · intro h
    unfold module? at h
    split at h
    next key source hcut =>
      split at h
      · cases h
      next hne =>
        cases h
        obtain ⟨hfree, hv⟩ := Text.cut_eq_some_iff.mp hcut
        rw [Bool.or_eq_true, not_or, List.isEmpty_iff, List.isEmpty_iff] at hne
        exact ⟨⟨hne.1, hfree, hne.2⟩, hv.symm⟩
    · cases h
  · rintro ⟨hm, rfl⟩
    have hkey : m.1.isEmpty = false := by simpa using hm.key_ne_nil
    have hsource : m.2.isEmpty = false := by simpa using hm.source_ne_nil
    simp only [module?, joined, Text.cut_append hm.key_free, hkey, hsource]
    rfl

theorem Separable.eq_of_joined {m' : Text × Text} (h : Separable m) (h' : Separable m')
    (heq : joined m = joined m') : m = m' := by
  have hm := module?_eq_some_iff.mpr ⟨h, rfl⟩
  rw [heq, module?_eq_some_iff.mpr ⟨h', rfl⟩] at hm
  exact (Option.some.inj hm).symm

def Spells (v : Text) : Prop := ∃ m, Separable m ∧ joined m = v

theorem spells_iff_unique : Spells v ↔ ∃! m, Separable m ∧ joined m = v := by
  constructor
  · rintro ⟨m, hm, rfl⟩
    exact ⟨m, ⟨hm, rfl⟩, fun m' h' => h'.1.eq_of_joined hm h'.2⟩
  · exact ExistsUnique.exists

theorem module?_eq_none_iff : module? v = none ↔ ¬ Spells v := by
  rw [Option.eq_none_iff_forall_ne_some]
  simp only [ne_eq, module?_eq_some_iff, Spells, not_exists]

theorem modulesOf_cons_of_some (h : module? v = some m) (values : List Text) :
    modulesOf (v :: values) = (modulesOf values).map (m :: ·) := by
  rw [modulesOf, h]

theorem modulesOf_cons_of_none (h : module? v = none) (values : List Text) :
    modulesOf (v :: values) = .error (.malformedModule v) := by
  rw [modulesOf, h]

theorem modulesOf_eq_ok_iff :
    modulesOf values = .ok ms ↔ (∀ m ∈ ms, Separable m) ∧ ms.map joined = values := by
  induction values generalizing ms with
  | nil =>
    constructor
    · intro h
      cases h
      exact ⟨List.forall_mem_nil _, rfl⟩
    · rintro ⟨-, h⟩
      rw [List.map_eq_nil_iff.mp h]
      rfl
  | cons v values ih =>
    constructor
    · intro h
      cases hv : module? v with
      | none =>
        rw [modulesOf_cons_of_none hv] at h
        cases h
      | some m =>
        rw [modulesOf_cons_of_some hv] at h
        obtain ⟨ms, hms, rfl⟩ := Outcome.map_eq_ok.mp h
        obtain ⟨hm, rfl⟩ := module?_eq_some_iff.mp hv
        obtain ⟨hall, rfl⟩ := ih.mp hms
        exact ⟨List.forall_mem_cons.mpr ⟨hm, hall⟩, rfl⟩
    · rintro ⟨hall, hjoined⟩
      cases ms with
      | nil => cases hjoined
      | cons m ms =>
        obtain ⟨hm, hrest⟩ := List.forall_mem_cons.mp hall
        obtain ⟨hv, hvalues⟩ := List.cons.inj hjoined
        rw [modulesOf_cons_of_some (module?_eq_some_iff.mpr ⟨hm, hv⟩)]
        exact Outcome.map_eq_ok.mpr ⟨ms, ih.mpr ⟨hrest, hvalues⟩, rfl⟩

def FirstUnspelled (values : List Text) (v : Text) : Prop :=
  ∃ before after, values = before ++ v :: after ∧ (∀ w ∈ before, Spells w) ∧ ¬ Spells v

theorem FirstUnspelled.cons {w : Text} (hw : Spells w) (h : FirstUnspelled values v) :
    FirstUnspelled (w :: values) v := by
  obtain ⟨before, after, rfl, hbefore, hv⟩ := h
  exact ⟨w :: before, after, rfl, List.forall_mem_cons.mpr ⟨hw, hbefore⟩, hv⟩

theorem FirstUnspelled.modulesOf_eq (h : FirstUnspelled values v) :
    modulesOf values = .error (.malformedModule v) := by
  obtain ⟨before, after, rfl, hbefore, hv⟩ := h
  induction before with
  | nil => exact modulesOf_cons_of_none (module?_eq_none_iff.mpr hv) after
  | cons w before ih =>
    obtain ⟨⟨m, hm⟩, hbefore⟩ := List.forall_mem_cons.mp hbefore
    rw [List.cons_append, modulesOf_cons_of_some (module?_eq_some_iff.mpr hm), ih hbefore]
    rfl

theorem firstUnspelled_of_error (h : modulesOf values = .error e) :
    ∃ v, FirstUnspelled values v ∧ e = .malformedModule v := by
  induction values with
  | nil => cases h
  | cons v values ih =>
    cases hv : module? v with
    | none =>
      rw [modulesOf_cons_of_none hv] at h
      cases h
      exact ⟨v, ⟨[], values, rfl, List.forall_mem_nil _, module?_eq_none_iff.mp hv⟩, rfl⟩
    | some m =>
      rw [modulesOf_cons_of_some hv, Outcome.map_eq_error] at h
      obtain ⟨w, hw, he⟩ := ih h
      exact ⟨w, hw.cons ⟨m, module?_eq_some_iff.mp hv⟩, he⟩

theorem modulesOf_eq_error_iff : modulesOf values = .error e ↔
    ∃ v, FirstUnspelled values v ∧ e = .malformedModule v := by
  constructor
  · exact firstUnspelled_of_error
  · rintro ⟨v, hv, rfl⟩
    exact hv.modulesOf_eq

theorem modulesOf_ok_iff : (∃ ms, modulesOf values = .ok ms) ↔ ∀ v ∈ values, Spells v := by
  constructor
  · rintro ⟨ms, h⟩ v hv
    obtain ⟨hall, rfl⟩ := modulesOf_eq_ok_iff.mp h
    obtain ⟨m, hm, rfl⟩ := List.mem_map.mp hv
    exact ⟨m, hall m hm, rfl⟩
  · intro h
    cases hvalues : modulesOf values with
    | ok ms => exact ⟨ms, rfl⟩
    | error e =>
      obtain ⟨v, ⟨before, after, rfl, -, hv⟩, -⟩ := modulesOf_eq_error_iff.mp hvalues
      exact absurd (h v (List.mem_append_right _ List.mem_cons_self)) hv

end LoadOptions

namespace Command

open LoadOptions

variable {arguments : List Text} {a : Arguments} {e : UsageError} {o : LoadOptions}

theorem modulesOf_of_ofArguments (h : ofArguments a = .ok o) :
    modulesOf (valuesOf "--module" a) = .ok o.modules := by
  rw [ofArguments, Outcome.bind_eq_ok] at h
  obtain ⟨ms, hms, h⟩ := h
  split at h
  · cases h
  · cases h
    exact hms

/-- The values of modules are looked at before the other arguments. -/
theorem ofArguments_of_error (h : modulesOf (valuesOf "--module" a) = .error e) :
    ofArguments a = .error e := by
  rw [ofArguments, h]
  rfl

theorem AsksToLoad.run_of_error (h : AsksToLoad arguments a)
    (he : modulesOf (valuesOf "--module" a) = .error e) (s : Surroundings) :
    Command.run s arguments = ⟨2, [], printedLines (Refusal.lines ⟨.load, e⟩), none⟩ := by
  rw [Command.run, h.read_eq, ofArguments_of_error he]
  rfl

def moduleRefusal (v : Text) : List Text :=
  [text "Usage: tflint-loader load [OPTIONS]",
    text "Try \x27tflint-loader load --help\x27 for help.", [],
    text "Error: Invalid value for \x27--module\x27: expected KEY=SOURCE, got \x27" ++ v ++
      text "\x27"]

theorem lines_malformedModule (v : Text) :
    Refusal.lines ⟨.load, .malformedModule v⟩ = moduleRefusal v := by
  have husage : CommandScope.load.usage = text "Usage: tflint-loader load [OPTIONS]" := by rfl
  have hhelp : CommandScope.load.helpLine =
      text "Try \x27tflint-loader load --help\x27 for help." := by rfl
  have hmessage : text "Error: " ++
      text "Invalid value for \x27--module\x27: expected KEY=SOURCE, got \x27" =
        text "Error: Invalid value for \x27--module\x27: expected KEY=SOURCE, got \x27" := by rfl
  rw [moduleRefusal, ← husage, ← hhelp, ← hmessage]
  simp only [Refusal.lines, UsageError.message, UsageError.showsUsage, if_true, List.append_assoc]

/-- The values of the option for modules are parted exactly: all of them are, into the keys and
sources that they are put together of, in order, wherever each is put together in this way, which is
then the only one; or else the first that is not is refused. A run that is asked to load with such a
value prints the refusal and ends without having loaded anything, and one that loads has parted
them. -/
theorem splits_modules (values : List Text) :
    (∀ ms, modulesOf values = .ok ms ↔ (∀ m ∈ ms, Separable m) ∧ ms.map joined = values) ∧
    ((∃ ms, modulesOf values = .ok ms) ↔ ∀ v ∈ values, ∃! m, Separable m ∧ joined m = v) ∧
    (∀ e, modulesOf values = .error e ↔ ∃ v, FirstUnspelled values v ∧ e = .malformedModule v) ∧
    (∀ arguments a v, AsksToLoad arguments a → valuesOf "--module" a = values →
      FirstUnspelled values v →
        ∀ s, Command.run s arguments = ⟨2, [], printedLines (moduleRefusal v), none⟩) ∧
    ∀ arguments o, Command.read arguments = .ok (.load o) →
      ∃ a, AsksToLoad arguments a ∧ modulesOf (valuesOf "--module" a) = .ok o.modules := by
  refine ⟨fun ms => modulesOf_eq_ok_iff, ?parted, fun e => modulesOf_eq_error_iff, ?refused, ?loaded⟩
  case parted =>
    rw [modulesOf_ok_iff]
    exact forall₂_congr fun v _ => spells_iff_unique
  case refused =>
    rintro arguments a v hasks rfl hv s
    rw [hasks.run_of_error hv.modulesOf_eq s, lines_malformedModule]
  case loaded =>
    intro arguments o h
    obtain ⟨a, hasks, ho⟩ := read_eq_load_iff.mp h
    exact ⟨a, hasks, modulesOf_of_ofArguments ho⟩

def mixedValues : List Text := [text "a=b=c", text "bad"]

theorem splits_modules_of_mixed :
    let arguments := text "load" :: mixedValues.flatMap fun v => [text "--module", v]
    let a : Arguments := ⟨mixedValues.map fun v => (text "--module", v), []⟩
    AsksToLoad arguments a ∧ valuesOf "--module" a = mixedValues ∧
      FirstUnspelled mixedValues (text "bad") ∧
      modulesOf [text "a=b=c"] = .ok [(text "a", text "b=c")] ∧
      ∀ s, Command.run s arguments = ⟨2, [], printedLines (moduleRefusal (text "bad")), none⟩ := by
  intro arguments a
  have hasks : AsksToLoad arguments a := ⟨⟨_, by rfl, by rfl⟩, by rfl⟩
  have hvalues : valuesOf "--module" a = mixedValues := by rfl
  obtain ⟨-, -, herror, hrun, -⟩ := splits_modules mixedValues
  obtain ⟨v, hv, hbad⟩ := (herror (.malformedModule (text "bad"))).mp (by rfl)
  cases hbad
  have hparted : modulesOf [text "a=b=c"] = .ok [(text "a", text "b=c")] :=
    ((splits_modules _).1 _).mpr
      ⟨List.forall_mem_singleton.mpr ⟨by decide, by decide, by decide⟩, by rfl⟩
  exact ⟨hasks, hvalues, hv, hparted, hrun arguments a _ hasks hvalues hv⟩

end Command

end Terraload
