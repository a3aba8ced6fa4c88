import Terraload.Hcl.Evaluation
/-!
When a body has no document because a block has the name of an attribute: the attribute stands
before the block in the same body, and everything before the block, and the block itself, has a
value.
-/
namespace Terraload.Hcl

variable {b pre post inner : Body} {d d' : Draft} {e : Entry} {n kind : Name} {f : Fault}

def Draft.start : Draft := ⟨[], [], [], []⟩

def Entry.attribute? : Entry → Option Name
  | .attribute n _ _ _ => some n
  | _ => none

def Body.attributes (b : Body) : List Name := b.filterMap Entry.attribute?

def Body.Valued (b : Body) : Prop := ∃ d, Body.addTo b .start = .ok d

inductive Redefines : Body → Name → Prop
  | here {pre post inner : Body} {kind : Name} {labels : List Label} {keys : List (List Char)}
      (hpre : pre.Valued) (hinner : inner.Valued) (hlabels : labels.mapM Label.key = .ok keys)
      (hkind : kind ∈ pre.attributes) : Redefines (pre ++ .block kind labels inner :: post) kind
  | inside {pre post inner : Body} {kind n : Name} {labels : List Label} (hpre : pre.Valued)
      (h : Redefines inner n) : Redefines (pre ++ .block kind labels inner :: post) n

theorem Body.addTo_append (pre post : Body) (d : Draft) :
    Body.addTo (pre ++ post) d = (Body.addTo pre d).bind (Body.addTo post) := by
  induction pre generalizing d with
  | nil => rfl
  | cons e pre ih =>
    simp only [List.cons_append, Body.addTo]
    cases e.addTo d with
    | error f => rfl
    | ok d => exact ih d

theorem Entry.addTo_block (kind : Name) (labels : List Label) (inner : Body) (d : Draft) :
    Entry.addTo (.block kind labels inner) d =
      (Body.addTo inner .start).bind fun b =>
        ((labels.mapM Label.key).mapError Fault.numeral).bind fun keys =>
          if d.attributes.contains kind then .error (.redefined kind)
          else .ok (d.addBlock kind
            (keys.foldr (fun k v => .object [(Text.ofChars k, v)]) (.object b.finish))) := by
  rw [Entry.addTo]
  rfl

theorem Entry.addTo_attributes (h : e.addTo d = .ok d') :
    d'.attributes = e.attribute?.toList ++ d.attributes := by
  cases e with
  | gap g => rw [Entry.addTo] at h; cases h; rfl
  | «attribute» n x gaps trail =>
    rw [Entry.addTo] at h
    cases hx : x.value with
    | error f => rw [hx] at h; cases h
    | ok v => rw [hx] at h; cases h; rfl
  | block kind labels inner =>
    rw [Entry.addTo_block] at h
    cases hinner : Body.addTo inner .start with
    | error f => rw [hinner] at h; cases h
    | ok b =>
      cases hlabels : labels.mapM Label.key with
      | error f => rw [hinner, hlabels] at h; cases h
      | ok keys =>
        rw [hinner, hlabels] at h
        dsimp only [Except.bind, Except.mapError] at h
        split at h
        next => cases h
        next => cases h; rfl

theorem Body.addTo_attributes (h : Body.addTo b d = .ok d') (n : Name) :
    n ∈ d'.attributes ↔ n ∈ b.attributes ∨ n ∈ d.attributes := by
  induction b generalizing d with
  | nil => rw [Body.addTo] at h; cases h; simp [Body.attributes]
  | cons e b ih =>
    rw [Body.addTo] at h
    cases he : e.addTo d with
    | error f => rw [he] at h; cases h
    | ok x =>
      rw [he] at h
      rw [ih h, Entry.addTo_attributes he]
      cases hname : e.attribute? with
      | none => simp [Body.attributes, hname]
      | some k => simp [Body.attributes, hname, or_assoc, or_left_comm]

theorem Body.addTo_stop (hpre : Body.addTo pre d = .ok d') (he : e.addTo d' = .error f)
    (post : Body) : Body.addTo (pre ++ e :: post) d = .error f := by
  rw [Body.addTo_append, hpre]
  show Body.addTo (e :: post) d' = .error f
  rw [Body.addTo, he]
  rfl

/-- Where an entry redefines a name, or a block inside of it does. -/
theorem Entry.addTo_redefined (h : e.addTo d = .error (.redefined n)) :
    ∃ kind labels, ∃ inner : Body, e = .block kind labels inner ∧
      (Body.addTo inner .start = .error (.redefined n) ∨ inner.Valued ∧
        (∃ keys, labels.mapM Label.key = .ok keys) ∧ kind = n ∧ n ∈ d.attributes) := by
  cases e with
  | gap g => rw [Entry.addTo] at h; cases h
  | «attribute» n x gaps trail =>
    rw [Entry.addTo] at h
    cases hx : x.value with
    | error f => rw [hx] at h; cases h
    | ok v => rw [hx] at h; cases h
  | block kind labels inner =>
    refine ⟨kind, labels, inner, rfl, ?_⟩
    rw [Entry.addTo_block] at h
    cases hinner : Body.addTo inner .start with
    | error f =>
      rw [hinner] at h
      cases h
      exact .inl rfl
    | ok b =>
      cases hlabels : labels.mapM Label.key with
      | error f => rw [hinner, hlabels] at h; cases h
      | ok keys =>
        rw [hinner, hlabels] at h
        dsimp only [Except.bind, Except.mapError] at h
        split at h
        next hkind =>
          cases h
          exact .inr ⟨⟨b, hinner⟩, ⟨keys, rfl⟩, rfl, by simpa using hkind⟩
        next => cases h

/-- The first entry without a value decides. -/
theorem Body.addTo_error (h : Body.addTo b d = .error f) :
    ∃ pre e post x, b = pre ++ e :: post ∧ Body.addTo pre d = .ok x ∧ e.addTo x = .error f := by
  induction b generalizing d with
  | nil => rw [Body.addTo] at h; cases h
  | cons e b ih =>
    rw [Body.addTo] at h
    cases he : e.addTo d with
    | error g =>
      rw [he] at h
      cases h
      exact ⟨[], e, b, d, rfl, rfl, he⟩
    | ok x =>
      rw [he] at h
      obtain ⟨pre, e', post, y, rfl, hpre, he'⟩ := ih h
      refine ⟨e :: pre, e', post, y, rfl, ?_, he'⟩
      rw [Body.addTo, he]
      exact hpre

theorem Body.inner_lt (pre post : Body) {kind : Name} {labels : List Label} {inner : Body} :
    sizeOf inner < sizeOf (pre ++ .block kind labels inner :: post) := by
  induction pre with
  | nil =>
    rw [List.nil_append, List.cons.sizeOf_spec, Entry.block.sizeOf_spec]
    omega
  | cons e pre ih =>
    rw [List.cons_append, List.cons.sizeOf_spec]
    omega

theorem redefines_of_addTo (b : Body) (h : Body.addTo b .start = .error (.redefined n)) :
    Redefines b n := by
  obtain ⟨pre, e, post, x, rfl, hpre, he⟩ := Body.addTo_error h
  obtain ⟨kind, labels, inner, rfl, hinner | ⟨hinner, ⟨keys, hlabels⟩, rfl, hmem⟩⟩ :=
    Entry.addTo_redefined he
  -- The block itself may be free of it, and the fault inside of its body.
  · exact .inside ⟨x, hpre⟩ (redefines_of_addTo inner hinner)
  · refine .here ⟨x, hpre⟩ hinner hlabels ?_
    rw [Body.addTo_attributes hpre] at hmem
    exact hmem.resolve_right List.not_mem_nil
termination_by sizeOf b
decreasing_by
  subst_vars
  exact Body.inner_lt pre post

theorem Redefines.addTo (h : Redefines b n) : Body.addTo b .start = .error (.redefined n) := by
  induction h with
  | @here pre post inner kind labels keys hpre hinner hlabels hkind =>
    obtain ⟨d, hd⟩ := hpre
    obtain ⟨x, hx⟩ := hinner
    have hmem : d.attributes.contains kind = true := by
      rw [List.contains_iff_mem, Body.addTo_attributes hd]
      exact .inl hkind
    have hentry : Entry.addTo (.block kind labels inner) d = .error (.redefined kind) := by
      rw [Entry.addTo_block, hx, hlabels]
      exact if_pos hmem
    exact Body.addTo_stop hd hentry post
  | @inside pre post inner kind n labels hpre h ih =>
    obtain ⟨d, hd⟩ := hpre
    have hentry : Entry.addTo (.block kind labels inner) d = .error (.redefined n) := by
      rw [Entry.addTo_block, ih]
      rfl
    exact Body.addTo_stop hd hentry post

theorem Body.document_eq (b : Body) : b.document = (Body.addTo b .start).map Draft.finish := by
  unfold Body.document Draft.start
  cases Body.addTo b ⟨[], [], [], []⟩ <;> rfl

theorem document_redefined_iff (b : Body) (n : Name) :
    b.document = .error (.redefined n) ↔ Redefines b n := by
  constructor
  · intro h
    refine redefines_of_addTo b ?_
    rw [Body.document_eq] at h
    cases hb : Body.addTo b .start with
    | error f => rw [hb] at h; cases h; rfl
    | ok d => rw [hb] at h; cases h
  · intro h
    rw [Body.document_eq, h.addTo]
    rfl

end Terraload.Hcl
