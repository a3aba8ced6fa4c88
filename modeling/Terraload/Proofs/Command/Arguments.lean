import Terraload.Proofs.Command.ModuleValues
/-!
What is read of arguments stands in them: a surrogate that no argument has is in nothing that a
command is told.
-/
namespace Terraload

variable {x : Surrogate} {arguments : List Text}

structure Arguments.Without (a : CodePoint) (r : Arguments) : Prop where
  values : ∀ o ∈ r.options, a ∉ o.2
  others : ∀ t ∈ r.others, a ∉ t

namespace Arguments

variable {rules : OptionRules} {r : Arguments} {a : CodePoint}

theorem Without.option {value : Text} (h : r.Without a) (hvalue : a ∉ value) (name : Text) :
    (r.option name value).Without a where
  values := List.forall_mem_cons.mpr ⟨hvalue, h.values⟩
  others := h.others

theorem Without.other {t : Text} (h : r.Without a) (ht : a ∉ t) : (r.other t).Without a where
  values := h.values
  others := List.forall_mem_cons.mpr ⟨ht, h.others⟩

theorem read_without (h : read rules arguments = .ok r) (harguments : ∀ t ∈ arguments, a ∉ t) :
    r.Without a := by
  fun_induction read rules arguments generalizing r with
  | case1 =>
    cases h
    exact ⟨fun o ho => absurd ho List.not_mem_nil, fun t ht => absurd ht List.not_mem_nil⟩
  | case2 argument rest hmark =>
    cases h
    exact ⟨fun o ho => absurd ho List.not_mem_nil,
      fun t ht => harguments t (List.mem_cons_of_mem _ ht)⟩
  | case3 => cases h
  | case4 => cases h
  | case5 argument rest _ _ name value _ _ _ ih =>
    obtain ⟨r, hr, rfl⟩ := Outcome.map_eq_ok.mp h
    exact (ih hr fun t ht => harguments t (List.mem_cons_of_mem _ ht)).option List.not_mem_nil _
  | case6 argument rest _ _ name _ value hcut ih =>
    obtain ⟨r, hr, rfl⟩ := Outcome.map_eq_ok.mp h
    obtain ⟨-, hargument⟩ := Text.cut_eq_some_iff.mp hcut
    have hvalue : a ∉ value := fun hmem => harguments argument List.mem_cons_self
      (hargument ▸ List.mem_append_right name (List.mem_cons_of_mem _ hmem))
    exact (ih hr fun t ht => harguments t (List.mem_cons_of_mem _ ht)).option hvalue _
  | case7 => cases h
  | case8 argument _ _ name _ value rest _ ih =>
    obtain ⟨r, hr, rfl⟩ := Outcome.map_eq_ok.mp h
    rw [List.forall_mem_cons, List.forall_mem_cons] at harguments
    exact (ih hr harguments.2.2).option harguments.2.1 _
  | case9 argument rest _ _ _ ih =>
    obtain ⟨r, hr, rfl⟩ := Outcome.map_eq_ok.mp h
    rw [List.forall_mem_cons] at harguments
    exact (ih hr harguments.2).other harguments.1
  | case10 =>
    cases h
    exact ⟨fun o ho => absurd ho List.not_mem_nil, harguments⟩

end Arguments

namespace LoadOptions

structure Without (a : CodePoint) (o : LoadOptions) : Prop where
  directory : a ∉ o.directory
  modules : ∀ m ∈ o.modules, a ∉ m.1 ∧ a ∉ m.2

variable {o : LoadOptions} {a : CodePoint} {r : Arguments}

/-- What a module is read of has its key and its source in it. -/
theorem modulesOf_without {values : List Text} {ms : List (Text × Text)}
    (h : modulesOf values = .ok ms) (hvalues : ∀ v ∈ values, a ∉ v) :
    ∀ m ∈ ms, a ∉ m.1 ∧ a ∉ m.2 := by
  obtain ⟨-, rfl⟩ := modulesOf_eq_ok_iff.mp h
  intro m hm
  have hjoined : a ∉ joined m := hvalues _ (List.mem_map_of_mem hm)
  exact ⟨fun hkey => hjoined (List.mem_append_left _ hkey),
    fun hsource => hjoined (List.mem_append_right _ (List.mem_cons_of_mem _ hsource))⟩

theorem valuesOf_without (h : r.Without a) (name : String) : ∀ v ∈ valuesOf name r, a ∉ v := by
  intro v hv
  obtain ⟨o, ho, rfl⟩ := List.mem_map.mp hv
  exact h.values o (List.mem_filter.mp ho).1

theorem ofArguments_without (h : ofArguments r = .ok o) (hr : r.Without (.surrogate x)) :
    o.Without (.surrogate x) := by
  rw [ofArguments, Outcome.bind_eq_ok] at h
  obtain ⟨ms, hmodules, h⟩ := h
  split at h
  · cases h
  · cases h
    refine ⟨?_, modulesOf_without hmodules (valuesOf_without hr _)⟩
    dsimp only
    cases hlast : (valuesOf "--dir" r).getLast? with
    | none => exact Text.surrogate_notMem_ofChars x _
    | some d => exact valuesOf_without hr _ d (List.mem_of_getLast? hlast)

end LoadOptions

namespace Command

variable {o : LoadOptions}

/-- What is asked for stands in the arguments. -/
theorem read_without (h : read arguments = .ok (.load o))
    (harguments : ∀ t ∈ arguments, .surrogate x ∉ t) : o.Without (.surrogate x) := by
  obtain ⟨r, hasks, ho⟩ := read_eq_load_iff.mp h
  obtain ⟨rest, hprogram, hread⟩ := hasks.readable
  obtain ⟨-, hrest⟩ := List.forall_mem_cons.mp (Arguments.read_without hprogram harguments).others
  exact LoadOptions.ofArguments_without ho (Arguments.read_without hread hrest)

end Command

end Terraload
