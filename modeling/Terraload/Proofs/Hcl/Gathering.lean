import Terraload.Hcl.Evaluation
import Terraload.Proofs.Hcl.Declaration
import Terraload.Proofs.Hcl.Plain
/-!
Entries that give the shares of declarations. A draft that holds shares holds one more after each
entry, and what it ends with is the object that the shares make up.
-/
namespace Terraload.Hcl

variable {ss ts : List Share} {d : Draft} {k : Name} {v : Value} {body : Body}

structure Draft.Holds (d : Draft) (ss : List Share) : Prop where
  members : d.members = gather ss
  attributes : ∀ k ∈ d.attributes, ∃ s ∈ ss, s.name = k ∧ s.block = false
  comments : d.comments = []
  inner : d.inner = []

theorem Draft.holds_nil : Draft.Holds ⟨[], [], [], []⟩ [] := ⟨rfl, by simp, rfl, rfl⟩

theorem Draft.Holds.finish (h : d.Holds ss) : d.finish = gather ss := by
  rw [Draft.finish, h.comments, h.inner, h.members]
  rfl

theorem Draft.Holds.addAttribute (h : d.Holds ss) (hc : Compatible (ss ++ [⟨k, false, v⟩])) :
    (d.addAttribute k v [] []).Holds (ss ++ [⟨k, false, v⟩]) where
  members := by rw [Draft.addAttribute, h.members, gather_attribute hc]
  attributes := by
    intro n hn
    obtain rfl | hn := List.mem_cons.mp hn
    · exact ⟨_, List.mem_append_right _ (List.mem_singleton_self _), rfl, rfl⟩
    · obtain ⟨s, hs, hname⟩ := h.attributes n hn
      exact ⟨s, List.mem_append_left _ hs, hname⟩
  comments := by
    have hnone : Gap.comments [] = [] := rfl
    simp [Draft.addAttribute, h.comments, hnone]
  inner := by simp [Draft.addAttribute, h.inner]

theorem Draft.Holds.addBlock (h : d.Holds ss) (hc : Compatible (ss ++ [⟨k, true, v⟩])) :
    (d.addBlock k v).Holds (ss ++ [⟨k, true, v⟩]) where
  members := by rw [gather_block hc, ← h.members]; rfl
  attributes := by
    intro n hn
    obtain ⟨s, hs, hname⟩ := h.attributes n hn
    exact ⟨s, List.mem_append_left _ hs, hname⟩
  comments := h.comments
  inner := h.inner

/-- A block does not meet an attribute of its name. -/
theorem Draft.Holds.not_attribute (h : d.Holds ss) (hc : Compatible (ss ++ [⟨k, true, v⟩])) :
    d.attributes.contains k = false := by
  rw [← Bool.not_eq_true, List.contains_iff_mem]
  intro hk
  obtain ⟨s, hs, hname, hblock⟩ := h.attributes k hk
  have htolerates := (List.pairwise_append.mp hc).2.2 s hs _ (List.mem_singleton_self _) hname
  rw [hblock] at htolerates
  exact absurd htolerates.1 (by decide)

def Gives (body : Body) (ts : List Share) : Prop :=
  ∀ ss d, d.Holds ss → Compatible (ss ++ ts) →
    ∃ d', Body.addTo body d = .ok d' ∧ d'.Holds (ss ++ ts)

theorem gives_nil : Gives [] [] := by
  intro ss d hd _
  exact ⟨d, rfl, by rwa [List.append_nil]⟩

theorem Gives.gap {g : Gap} (h : Gives body ts) (hg : Gap.comments g = []) :
    Gives (.gap g :: body) ts := by
  intro ss d hd hc
  obtain ⟨d', hrun, hd'⟩ := h ss d hd hc
  refine ⟨d', ?_, hd'⟩
  rw [Body.addTo, Entry.addTo, hg, List.append_nil]
  exact hrun

/-- An entry that adds a share, in front of others. -/
theorem Gives.cons {e : Entry} {s : Share} (h : Gives body ts)
    (he : ∀ ss d, d.Holds ss → Compatible (ss ++ [s]) →
      ∃ d', e.addTo d = .ok d' ∧ d'.Holds (ss ++ [s])) : Gives (e :: body) (s :: ts) := by
  intro ss d hd hc
  rw [List.append_cons] at hc ⊢
  obtain ⟨d', he, hd'⟩ := he ss d hd (List.pairwise_append.mp hc).1
  obtain ⟨d'', hrun, hd''⟩ := h _ d' hd' hc
  refine ⟨d'', ?_, hd''⟩
  rw [Body.addTo, he]
  exact hrun

theorem Gives.attribute {e : Expr} (h : Gives body ts) (he : e.value = .ok v) :
    Gives (.attribute k e [] [] :: body) (⟨k, false, v⟩ :: ts) := by
  refine h.cons fun ss d hd hc => ⟨_, ?_, hd.addAttribute hc⟩
  rw [Entry.addTo, he]
  rfl

def Tag.label : Tag → Label
  | .word k => .name k
  | .quoted cs => .template (literal cs)

/-- A label that says what is written: a word that no rule takes for itself, or a string without
marks. -/
def Tag.Plain : Tag → Prop
  | .word k => Key k
  | .quoted cs => ∀ x ∈ cs, PlainChar x

theorem Tag.Plain.key {t : Tag} (h : t.Plain) : t.label.key = .ok t.said := by
  cases t with
  | word k => rfl
  | quoted cs =>
    rw [Tag.label, Label.key, templateText_literal, unescape_plain fun x hx => (h x hx).2.2.1]
    rfl

theorem mapM_key {tags : List Tag} (h : ∀ t ∈ tags, t.Plain) :
    (tags.map Tag.label).mapM Label.key = .ok (tags.map Tag.said) := by
  induction tags with
  | nil => rfl
  | cons t tags ih =>
    rw [List.map_cons, List.mapM_cons, (h t (by simp)).key, ih fun t ht => h t (by simp [ht])]
    rfl

theorem Gives.block {inside : Body} {tags : List Tag} (h : Gives body ts) (htags : ∀ t ∈ tags, t.Plain)
    (hinside : Gives inside ss) (hc : Compatible ss) :
    Gives (.block k (tags.map Tag.label) inside :: body)
      (⟨k, true, wrap tags (.object (gather ss))⟩ :: ts) := by
  obtain ⟨b, hb, hholds⟩ := hinside [] _ Draft.holds_nil hc
  refine h.cons fun ss d hd hc => ⟨_, ?_, hd.addBlock hc⟩
  have hkeys : ((tags.map Tag.label).mapM Label.key).mapError Fault.numeral =
      .ok (tags.map Tag.said) := by rw [mapM_key htags]; rfl
  rw [Entry.addTo, hb, hkeys]
  simp only [bind, Except.bind, pure, Except.pure, hd.not_attribute hc, Bool.false_eq_true, if_false,
    hholds.finish, List.nil_append, List.foldr_map, wrap]

end Terraload.Hcl
