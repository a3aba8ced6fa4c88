import Mathlib.Data.List.Basic
import Mathlib.Data.List.Induction
import Mathlib.Data.List.Nodup
import Mathlib.Data.List.Pairwise
import Terraload.Hcl.Expression
import Terraload.Proofs.Members
import Terraload.Proofs.Text
/-!
Declarations of a body, and the object they stand for: a member for each attribute, and one for each
kind of block, which lists the blocks of this kind in their order.
-/
namespace Terraload

namespace Hcl

inductive Tag
  | word (k : Name)
  | quoted (cs : List Char)

def Tag.said : Tag → List Char
  | .word k => k
  | .quoted cs => cs

inductive Decl
  | attribute (name : Name) (value : Value)
  | block (kind : Name) (tags : List Tag) (body : List Decl)

structure Share where
  name : Name
  block : Bool
  value : Value

def wrap (tags : List Tag) (v : Value) : Value :=
  tags.foldr (fun t v => .object [(Text.ofChars t.said, v)]) v

def blocksOf (ss : List Share) (kind : Name) : List Value :=
  (ss.filter fun s => s.name = kind).map (·.value)

def meaning (ss : List Share) (k : Name) : Value :=
  match ss.find? fun s => s.name = k ∧ s.block = false with
  | some s => s.value
  | none => .list (blocksOf ss k)

def declared (ss : List Share) : List Name := (ss.map (·.name)).eraseDups

def gather (ss : List Share) : Members Value :=
  (declared ss).map fun k => (Text.ofChars k, meaning ss k)

mutual

def Decl.share : Decl → Share
  | .attribute k v => ⟨k, false, v⟩
  | .block kind tags body => ⟨kind, true, wrap tags (.object (gather (shares body)))⟩

def shares : List Decl → List Share
  | [] => []
  | d :: ds => d.share :: shares ds

end

def document (ds : List Decl) : Members Value := gather (shares ds)

def Decl.ofKind? (kind : Name) : Decl → Option Value
  | .attribute _ _ => none
  | .block k tags body => if k = kind then some (wrap tags (.object (document body))) else none

def Share.Tolerates (a b : Share) : Prop := a.name = b.name → a.block = true ∧ b.block = true

instance : Std.Symm Share.Tolerates := ⟨fun _ _ h hname => (h hname.symm).symm⟩

instance (a b : Share) : Decidable (a.Tolerates b) :=
  inferInstanceAs (Decidable (a.name = b.name → a.block = true ∧ b.block = true))

def Compatible (ss : List Share) : Prop := ss.Pairwise Share.Tolerates

instance (ss : List Share) : Decidable (Compatible ss) :=
  inferInstanceAs (Decidable (ss.Pairwise Share.Tolerates))

variable {ss : List Share} {s : Share} {k : Name} {v : Value}

theorem shares_eq_map (ds : List Decl) : shares ds = ds.map Decl.share := by
  induction ds with
  | nil => rfl
  | cons d ds ih => rw [shares, ih, List.map_cons]

theorem mem_declared : k ∈ declared ss ↔ ∃ s ∈ ss, s.name = k := by
  simp [declared]

theorem declared_append (ss : List Share) (s : Share) : declared (ss ++ [s]) =
    if s.name ∈ declared ss then declared ss else declared ss ++ [s.name] := by
  have hrest : [s.name].removeAll (ss.map (·.name)) =
      if s.name ∈ declared ss then [] else [s.name] := by
    simp only [List.removeAll, List.filter_cons, List.filter_nil, List.elem_eq_mem, declared,
      List.mem_eraseDups]
    split <;> split <;> simp_all
  rw [declared, List.map_append, List.eraseDups_append, List.map_singleton, hrest]
  split
  · rw [List.eraseDups_nil, List.append_nil, declared]
  · rfl

theorem nodup_declared (ss : List Share) : (declared ss).Nodup := by
  induction ss using List.reverseRecOn with
  | nil => exact .nil
  | append_singleton ss s ih =>
    rw [declared_append]
    split
    next => exact ih
    next h =>
      refine List.nodup_append.mpr ⟨ih, List.nodup_singleton _, fun n hn m hm heq => h ?_⟩
      rwa [← List.mem_singleton.mp hm, ← heq]

theorem names_gather (ss : List Share) :
    (gather ss).names = (declared ss).map Text.ofChars := by
  simp [gather, Members.names, Function.comp_def]

theorem nodup_names_gather (ss : List Share) : (gather ss).names.Nodup := by
  rw [names_gather]
  exact (nodup_declared ss).map Text.ofChars_injective

theorem ofChars_mem_names_gather : Text.ofChars k ∈ (gather ss).names ↔ k ∈ declared ss := by
  rw [names_gather, List.mem_map_of_injective Text.ofChars_injective]

theorem get?_gather (h : k ∈ declared ss) :
    (gather ss).get? (Text.ofChars k) = some (meaning ss k) := by
  rw [gather]
  generalize declared ss = ks at h
  induction ks with
  | nil => cases h
  | cons n ks ih =>
    rw [List.map_cons, Members.get?_cons]
    by_cases hn : k = n
    · rw [if_pos (by rw [hn]), hn]
    · rw [if_neg fun heq => hn (Text.ofChars_inj.mp heq)]
      exact ih ((List.mem_cons.mp h).resolve_left hn)

theorem meaning_of_attribute (h : Compatible ss) (hs : s ∈ ss) (hblock : s.block = false) :
    meaning ss s.name = s.value := by
  have hfind : ss.find? (fun t => t.name = s.name ∧ t.block = false) = some s := by
    cases hfound : ss.find? fun t => t.name = s.name ∧ t.block = false with
    | none => simpa [hblock] using List.find?_eq_none.mp hfound s hs
    | some t =>
      have ht := List.find?_some hfound
      simp only [decide_eq_true_eq] at ht
      by_contra hne
      have hblocks := List.Pairwise.forall h (List.mem_of_find?_eq_some hfound) hs
        (fun heq => hne (by rw [heq])) ht.1
      rw [ht.2] at hblocks
      exact absurd hblocks.1 (by decide)
  rw [meaning, hfind]

theorem meaning_of_blocks (h : ∀ s ∈ ss, s.name = k → s.block = true) :
    meaning ss k = .list (blocksOf ss k) := by
  have hfind : ss.find? (fun s => s.name = k ∧ s.block = false) = none := by
    rw [List.find?_eq_none]
    intro s hs
    simp only [decide_eq_true_eq, not_and, Bool.not_eq_false]
    exact h s hs
  rw [meaning, hfind]

/-- What has the name of a block is a block. -/
theorem Compatible.block (h : Compatible ss) (hs : s ∈ ss) (hblock : s.block = true) :
    ∀ t ∈ ss, t.name = s.name → t.block = true := by
  intro t ht hname
  by_cases heq : t = s
  · rw [heq, hblock]
  · exact (List.Pairwise.forall h ht hs heq hname).1

theorem blocksOf_append (ss : List Share) (s : Share) (k : Name) : blocksOf (ss ++ [s]) k =
    blocksOf ss k ++ if s.name = k then [s.value] else [] := by
  by_cases h : s.name = k <;> simp [blocksOf, h]

theorem blocksOf_of_notMem (h : k ∉ declared ss) : blocksOf ss k = [] := by
  rw [blocksOf, List.map_eq_nil_iff, List.filter_eq_nil_iff]
  intro s hs hname
  exact h (mem_declared.mpr ⟨s, hs, by simpa using hname⟩)

theorem meaning_append_of_ne (h : s.name ≠ k) : meaning (ss ++ [s]) k = meaning ss k := by
  simp only [meaning, List.find?_append, blocksOf_append, if_neg h, List.append_nil]
  have hnone : [s].find? (fun t => t.name = k ∧ t.block = false) = none := by simp [h]
  rw [hnone, Option.or_none]

variable {ds : List Decl}

theorem share_mem {d : Decl} (h : d ∈ ds) : d.share ∈ shares ds := by
  rw [shares_eq_map]
  exact List.mem_map_of_mem h

theorem mem_names_document {n : Text} :
    n ∈ (document ds).names ↔ ∃ d ∈ ds, n = Text.ofChars d.share.name := by
  simp only [document, names_gather, List.mem_map, mem_declared, shares_eq_map]
  constructor
  · rintro ⟨k, ⟨s, ⟨d, hd, rfl⟩, rfl⟩, rfl⟩
    exact ⟨d, hd, rfl⟩
  · rintro ⟨d, hd, rfl⟩
    exact ⟨_, ⟨_, ⟨d, hd, rfl⟩, rfl⟩, rfl⟩

theorem get?_attribute (hc : Compatible (shares ds)) (h : .attribute k v ∈ ds) :
    (document ds).get? (Text.ofChars k) = some v := by
  have hs : ⟨k, false, v⟩ ∈ shares ds := share_mem h
  have hk : k ∈ declared (shares ds) := mem_declared.mpr ⟨_, hs, rfl⟩
  rw [document, get?_gather hk]
  exact congrArg some (meaning_of_attribute hc hs rfl)

/-- Where no attribute has the name of a kind, the blocks of that kind are those the name has. -/
theorem blocksOf_shares (h : ∀ s ∈ shares ds, s.name = k → s.block = true) :
    blocksOf (shares ds) k = ds.filterMap (Decl.ofKind? k) := by
  induction ds with
  | nil => rfl
  | cons d ds ih =>
    have ih := ih fun s hs => h s (List.mem_cons_of_mem _ hs)
    have hcons : blocksOf (shares (d :: ds)) k =
        (if d.share.name = k then [d.share.value] else []) ++ blocksOf (shares ds) k := by
      by_cases hname : d.share.name = k <;> simp [blocksOf, shares, hname]
    rw [hcons, ih, List.filterMap_cons]
    match d with
    | .attribute n v =>
      have hname : n ≠ k := fun hname => Bool.noConfusion (h ⟨n, false, v⟩ List.mem_cons_self hname)
      simp [Decl.share, Decl.ofKind?, hname]
    | .block kind tags body =>
      by_cases hname : kind = k <;> simp [Decl.share, Decl.ofKind?, document, hname]

theorem get?_block {tags : List Tag} {body : List Decl} (hc : Compatible (shares ds))
    (h : .block k tags body ∈ ds) :
    (document ds).get? (Text.ofChars k) = some (.list (ds.filterMap (Decl.ofKind? k))) := by
  have hs := share_mem h
  have hk : k ∈ declared (shares ds) := mem_declared.mpr ⟨_, hs, rfl⟩
  have hblocks : ∀ s ∈ shares ds, s.name = k → s.block = true := hc.block hs rfl
  rw [document, get?_gather hk, meaning_of_blocks hblocks, blocksOf_shares hblocks]

/-- A declaration gives a new meaning to its own name alone. -/
theorem gather_append (ss : List Share) (s : Share) :
    gather (ss ++ [s]) = (gather ss).put (Text.ofChars s.name) (meaning (ss ++ [s]) s.name) := by
  have hnames : ((gather ss).put (Text.ofChars s.name) (meaning (ss ++ [s]) s.name)).names =
      (gather (ss ++ [s])).names := by
    rw [Members.names_put, names_gather (ss ++ [s]), declared_append]
    by_cases h : s.name ∈ declared ss
    · rw [if_pos h, if_pos (ofChars_mem_names_gather.mpr h), names_gather]
    · rw [if_neg h, if_neg fun hmem => h (ofChars_mem_names_gather.mp hmem), names_gather,
        List.map_append]
      rfl
  refine (Members.ext (nodup_names_gather _) hnames fun n hn => ?_).symm
  rw [names_gather] at hn
  obtain ⟨k, hk, rfl⟩ := List.mem_map.mp hn
  rw [Members.get?_put, get?_gather hk]
  by_cases hname : s.name = k
  · rw [if_pos (by rw [hname]), hname]
  · rw [if_neg fun heq => hname (Text.ofChars_inj.mp heq).symm, meaning_append_of_ne hname]
    rw [declared_append] at hk
    refine get?_gather ?_
    split at hk
    · exact hk
    · exact (List.mem_append.mp hk).resolve_right fun hmem => hname (List.mem_singleton.mp hmem).symm

theorem gather_attribute (h : Compatible (ss ++ [⟨k, false, v⟩])) :
    gather (ss ++ [⟨k, false, v⟩]) = (gather ss).put (Text.ofChars k) v := by
  rw [gather_append, meaning_of_attribute h (by simp) rfl]

/-- A block joins the blocks of its kind that the object lists. -/
theorem gather_block (h : Compatible (ss ++ [⟨k, true, v⟩])) :
    gather (ss ++ [⟨k, true, v⟩]) = (gather ss).put (Text.ofChars k)
      (.list ((match (gather ss).get? (Text.ofChars k) with
        | some (.list vs) => vs
        | _ => []) ++ [v])) := by
  have hbefore : (match (gather ss).get? (Text.ofChars k) with
      | some (.list vs) => vs
      | _ => []) = blocksOf ss k := by
    by_cases hk : k ∈ declared ss
    · have hblocks : ∀ s ∈ ss, s.name = k → s.block = true := fun s hs hname =>
        ((List.pairwise_append.mp h).2.2 s hs _ (List.mem_singleton_self _) hname).1
      rw [get?_gather hk, meaning_of_blocks hblocks]
    · have hnone : (gather ss).get? (Text.ofChars k) = none := by
        rw [Members.get?_eq_none_iff, ofChars_mem_names_gather]
        exact hk
      rw [hnone, blocksOf_of_notMem hk]
  have hmeaning : meaning (ss ++ [⟨k, true, v⟩]) k = .list (blocksOf (ss ++ [⟨k, true, v⟩]) k) :=
    meaning_of_blocks (h.block (s := ⟨k, true, v⟩) (by simp) rfl)
  rw [gather_append, hmeaning, blocksOf_append, if_pos rfl, hbefore]

variable {ms : List (Name × Value)}

theorem shares_attributes (ms : List (Name × Value)) :
    shares (ms.map fun m => .attribute m.1 m.2) = ms.map fun m => ⟨m.1, false, m.2⟩ := by
  simp [shares_eq_map, Function.comp_def, Decl.share]

theorem compatible_attributes (h : (ms.map (·.1)).Nodup) :
    Compatible (ms.map fun m => ⟨m.1, false, m.2⟩) := by
  rw [Compatible, List.pairwise_map]
  exact (List.pairwise_map.mp h).imp fun hne hname => absurd hname hne

/-- Attributes of different names are the members of their body. -/
theorem gather_attributes (h : (ms.map (·.1)).Nodup) :
    gather (ms.map fun m => ⟨m.1, false, m.2⟩) = ms.map fun m => (Text.ofChars m.1, m.2) := by
  induction ms using List.reverseRecOn with
  | nil => rfl
  | append_singleton ms m ih =>
    have hc := compatible_attributes h
    rw [List.map_append, List.nodup_append] at h
    rw [List.map_append, List.map_singleton] at hc ⊢
    have hnames : Text.ofChars m.1 ∉ Members.names (ms.map fun m => (Text.ofChars m.1, m.2)) := by
      simp only [Members.names, List.map_map, List.mem_map, Function.comp_apply, Text.ofChars_inj]
      rintro ⟨n, hn, hname⟩
      exact h.2.2 _ (List.mem_map_of_mem hn) _ (by simp) hname
    rw [gather_attribute hc, ih h.1, Members.put_of_notMem _ hnames, List.map_append,
      List.map_singleton]

end Hcl

end Terraload
