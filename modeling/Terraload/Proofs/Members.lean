import Mathlib.Data.List.Induction
import Terraload.Proofs.Text
import Terraload.Value
/-!
Looking up a name after members were put: the new meaning for the name that was put, the old one for
any other. No name comes to stand twice, and in order the names ascend.
-/
namespace Terraload.Members

variable {α : Type}

def names (ms : Members α) : List Text := ms.map (·.1)

@[simp] theorem get?_nil (name : Text) : get? name ([] : Members α) = none := rfl

theorem get?_cons (name : Text) (m : Text × α) (ms : Members α) :
    get? name (m :: ms) = if name = m.1 then some m.2 else get? name ms := by
  obtain ⟨k, a⟩ := m
  by_cases h : name = k
  · subst h; simp [get?]
  · have hb : (name == k) = false := by simpa using h
    simp [get?, List.lookup_cons, hb, h]

theorem get?_put (name key : Text) (a : α) (ms : Members α) :
    get? name (put key a ms) = if name = key then some a else get? name ms := by
  induction ms with
  | nil => simp [put, get?_cons]
  | cons m ms ih =>
    by_cases hm : m.1 = key
    · subst hm
      by_cases hn : name = m.1 <;> simp [put, get?_cons, hn]
    · by_cases hn : name = m.1
      · simp [put, get?_cons, hm, hn]
      · simp [put, get?_cons, hm, hn, ih]

/-- Where names are given as strings, they are looked up as such. -/
theorem get?_map_text (name : String) (ms : List (String × α)) :
    get? (text name) (ms.map fun (k, a) => (text k, a)) = ms.lookup name := by
  induction ms with
  | nil => rfl
  | cons m ms ih =>
    obtain ⟨k, a⟩ := m
    rw [List.map_cons, get?_cons, ih]
    by_cases h : name = k
    · simp [h]
    · simp [h, text_inj, List.lookup_cons, beq_eq_false_iff_ne.mpr h]

theorem names_put (key : Text) (a : α) (ms : Members α) :
    names (put key a ms) = if key ∈ names ms then names ms else names ms ++ [key] := by
  induction ms with
  | nil => rfl
  | cons m ms ih =>
    by_cases hm : m.1 = key
    · subst hm; simp [put, names]
    · have hk : ¬ key = m.1 := fun h => hm h.symm
      by_cases hin : key ∈ names ms
      · rw [if_pos hin] at ih
        have hin' : key ∈ names (m :: ms) := List.mem_cons_of_mem _ hin
        rw [if_pos hin', put, if_neg hm]
        exact congrArg (m.1 :: ·) ih
      · rw [if_neg hin] at ih
        have hin' : key ∉ names (m :: ms) := by
          intro h
          obtain h | h := List.mem_cons.mp h
          · exact hk h
          · exact hin h
        rw [if_neg hin', put, if_neg hm]
        exact congrArg (m.1 :: ·) ih

theorem put_cons_self (key : Text) (a b : α) (ms : Members α) :
    put key a ((key, b) :: ms) = (key, a) :: ms := if_pos rfl

theorem put_cons_of_ne {key name : Text} (h : name ≠ key) (a b : α) (ms : Members α) :
    put key a ((name, b) :: ms) = (name, b) :: put key a ms := if_neg h

/-- A name that was there keeps its place. -/
theorem names_prefix_put (key : Text) (a : α) (ms : Members α) :
    names ms <+: names (put key a ms) := by
  rw [names_put]
  split
  · exact List.prefix_rfl
  · exact List.prefix_append _ _

theorem nodup_names_put {ms : Members α} (h : (names ms).Nodup) (key : Text) (a : α) :
    (names (put key a ms)).Nodup := by
  rw [names_put]
  by_cases hin : key ∈ names ms
  · rwa [if_pos hin]
  · rw [if_neg hin]
    exact List.nodup_append.mpr ⟨h, by simp, by
      intro x hx y hy hxy
      have : y = key := by simpa using hy
      subst this; subst hxy
      exact hin hx⟩

theorem get?_eq_none_iff (name : Text) (ms : Members α) :
    get? name ms = none ↔ name ∉ names ms := by
  induction ms with
  | nil => simp [names]
  | cons m ms ih =>
    by_cases hm : name = m.1
    · simp [get?_cons, names, hm]
    · rw [get?_cons, if_neg hm, ih]
      simp [names, hm]

theorem put_of_notMem {key : Text} (a : α) {ms : Members α} (h : key ∉ names ms) :
    put key a ms = ms ++ [(key, a)] := by
  induction ms with
  | nil => rfl
  | cons m ms ih =>
    simp only [names, List.map_cons, List.mem_cons, not_or] at h
    have hm : ¬ m.1 = key := fun hm => h.1 hm.symm
    rw [put, if_neg hm, ih h.2, List.cons_append]

theorem putAll_cons (before : Members α) (m : Text × α) (more : Members α) :
    putAll before (m :: more) = putAll (put m.1 m.2 before) more := rfl

theorem putAll_append (before more later : Members α) :
    putAll before (more ++ later) = putAll (putAll before more) later := List.foldl_append ..

/-- Members of different names come one after another. -/
theorem putAll_of_nodup {before more : Members α} (h : (names (before ++ more)).Nodup) :
    putAll before more = before ++ more := by
  induction more generalizing before with
  | nil => simp [putAll]
  | cons m more ih =>
    have hm : m.1 ∉ names before := by
      simp only [names, List.map_append, List.map_cons] at h ⊢
      intro hmem
      exact (List.nodup_append.mp h).2.2 _ hmem _ (by simp) rfl
    rw [putAll_cons, put_of_notMem m.2 hm, ih (by simpa using h), List.append_assoc]
    rfl

theorem mem_put {key : Text} {a : α} {ms : Members α} {m : Text × α} (h : m ∈ put key a ms) :
    m = (key, a) ∨ m ∈ ms := by
  induction ms with
  | nil => exact .inl (List.mem_singleton.mp h)
  | cons m' ms ih =>
    unfold put at h
    split at h
    · obtain h | h := List.mem_cons.mp h
      · exact .inl h
      · exact .inr (List.mem_cons_of_mem _ h)
    · obtain rfl | h := List.mem_cons.mp h
      · exact .inr List.mem_cons_self
      · exact (ih h).imp_right (List.mem_cons_of_mem _)

theorem mem_putAll {before : Members α} {more : List (Text × α)} {m : Text × α}
    (h : m ∈ putAll before more) : m ∈ before ∨ m ∈ more := by
  induction more generalizing before with
  | nil => exact .inl h
  | cons m' more ih =>
    obtain h | h := ih h
    · obtain rfl | h := mem_put h
      · exact .inr List.mem_cons_self
      · exact .inl h
    · exact .inr (List.mem_cons_of_mem _ h)

theorem mem_of_get? {name : Text} {a : α} {ms : Members α} (h : get? name ms = some a) :
    (name, a) ∈ ms := by
  induction ms with
  | nil => cases h
  | cons m ms ih =>
    rw [get?_cons] at h
    split at h
    next heq =>
      cases h
      rw [heq]
      exact List.mem_cons_self
    next => exact List.mem_cons_of_mem _ (ih h)

/-- Where no name stands twice, each member is found. -/
theorem get?_of_mem {name : Text} {a : α} {ms : Members α} (hnodup : (names ms).Nodup)
    (h : (name, a) ∈ ms) : get? name ms = some a := by
  induction ms with
  | nil => cases h
  | cons m ms ih =>
    obtain ⟨hm, hms⟩ := List.nodup_cons.mp hnodup
    rw [get?_cons]
    obtain rfl | h := List.mem_cons.mp h
    · rw [if_pos rfl]
    · have hname : name ∈ names ms := List.mem_map_of_mem h
      have hne : name ≠ m.1 := by
        rintro rfl
        exact hm hname
      rw [if_neg hne, ih hms h]

/-- What was put later counts. -/
theorem get?_putAll (name : Text) {before more : Members α} (h : (names more).Nodup) :
    get? name (putAll before more) = (get? name more).or (get? name before) := by
  induction more generalizing before with
  | nil => rfl
  | cons m more ih =>
    obtain ⟨hm, hmore⟩ := List.nodup_cons.mp h
    rw [putAll_cons, ih hmore, get?_put, get?_cons]
    by_cases hname : name = m.1
    · subst hname
      rw [(get?_eq_none_iff _ _).mpr hm]
      simp
    · simp [hname]

/-- A name that is not put means what it meant. -/
theorem get?_putAll_of_notMem {name : Text} {before more : Members α} (h : name ∉ names more) :
    get? name (putAll before more) = get? name before := by
  induction more generalizing before with
  | nil => rfl
  | cons m more ih =>
    obtain ⟨hm, hmore⟩ := not_or.mp (List.mem_cons.not.mp h)
    rw [putAll_cons, ih hmore, get?_put, if_neg hm]

/-- A name means what was put for it last. -/
theorem get?_putAll_last {name : Text} (a : α) {before front back : Members α}
    (h : name ∉ names back) : get? name (putAll before (front ++ (name, a) :: back)) = some a := by
  rw [putAll_append, putAll_cons, get?_putAll_of_notMem h, get?_put, if_pos rfl]

/-- A name means what was put for it last, or else what it meant before. -/
theorem get?_putAll_getLast? (name : Text) (before more : Members α) :
    get? name (putAll before more) =
      ((more.filter fun m => m.1 = name).getLast?.map (·.2)).or (get? name before) := by
  induction more using List.reverseRecOn with
  | nil => rfl
  | append_singleton more m ih =>
    have hput : putAll before (more ++ [m]) = put m.1 m.2 (putAll before more) :=
      putAll_append before more [m]
    rw [hput, get?_put, List.filter_append]
    by_cases hm : m.1 = name
    · simp [hm]
    · have hne : name ≠ m.1 := fun h => hm h.symm
      simp [hm, hne, ih]

theorem nodup_names_putAll {before : Members α} (h : (names before).Nodup)
    (more : List (Text × α)) : (names (putAll before more)).Nodup := by
  induction more generalizing before with
  | nil => exact h
  | cons m more ih => exact ih (nodup_names_put h m.1 m.2)

theorem get?_mapValues {β : Type} (f : α → β) (name : Text) (ms : Members α) :
    get? name (ms.map fun m => (m.1, f m.2)) = (get? name ms).map f := by
  induction ms with
  | nil => rfl
  | cons m ms ih =>
    rw [List.map_cons, get?_cons, get?_cons, ih]
    split <;> rfl

/-- Where no name stands twice, the order does not count. -/
theorem get?_perm (name : Text) {as bs : Members α} (hnodup : (names bs).Nodup)
    (h : as.Perm bs) : get? name as = get? name bs := by
  have hnames : (names as).Nodup := (h.map Prod.fst).nodup_iff.mpr hnodup
  cases hb : get? name bs with
  | none =>
    rw [get?_eq_none_iff] at hb ⊢
    exact fun hmem => hb ((h.map Prod.fst).mem_iff.mp hmem)
  | some b => exact get?_of_mem hnames (h.mem_iff.mpr (mem_of_get? hb))

theorem put_put (key : Text) (a b : α) (ms : Members α) : put key a (put key b ms) = put key a ms := by
  induction ms with
  | nil => exact put_cons_self key a b []
  | cons m ms ih =>
    by_cases hm : m.1 = key
    · subst hm
      simp [put]
    · simp only [put, if_neg hm, ih]

/-- Two names change places where one of them was there. -/
theorem put_comm {key other : Text} (hne : key ≠ other) (a b : α) {ms : Members α}
    (h : other ∈ names ms) : put key a (put other b ms) = put other b (put key a ms) := by
  induction ms with
  | nil => cases h
  | cons m ms ih =>
    obtain ⟨name, c⟩ := m
    by_cases hkey : name = key
    · subst hkey
      rw [put_cons_of_ne hne, put_cons_self, put_cons_self, put_cons_of_ne hne]
    by_cases hother : name = other
    · subst hother
      rw [put_cons_self, put_cons_of_ne hkey, put_cons_of_ne hkey, put_cons_self]
    · have hmem := (List.mem_cons.mp h).resolve_left fun heq => hother heq.symm
      rw [put_cons_of_ne hother, put_cons_of_ne hkey, put_cons_of_ne hkey, put_cons_of_ne hother,
        ih hmem]

theorem names_subset_put (key : Text) (a : α) (ms : Members α) : names ms ⊆ names (put key a ms) :=
  (names_prefix_put key a ms).subset

theorem names_subset_putAll (before more : Members α) : names before ⊆ names (putAll before more) := by
  induction more generalizing before with
  | nil => exact List.Subset.refl _
  | cons m more ih => exact List.Subset.trans (names_subset_put m.1 m.2 before) (ih _)

theorem mem_names_put (key : Text) (a : α) (ms : Members α) : key ∈ names (put key a ms) := by
  rw [names_put]
  split
  next h => exact h
  next => simp

theorem names_more_subset_putAll (before more : Members α) :
    names more ⊆ names (putAll before more) := by
  induction more generalizing before with
  | nil => exact List.nil_subset _
  | cons m more ih =>
    refine List.cons_subset.mpr ⟨?_, ih _⟩
    exact names_subset_putAll _ more (mem_names_put m.1 m.2 before)

theorem mem_names_putAll {name : Text} {before more : Members α} :
    name ∈ names (putAll before more) ↔ name ∈ names before ∨ name ∈ names more := by
  constructor
  · intro h
    obtain ⟨m, hm, rfl⟩ := List.mem_map.mp h
    exact (mem_putAll hm).imp (fun h => List.mem_map_of_mem h) fun h => List.mem_map_of_mem h
  · rintro (h | h)
    · exact names_subset_putAll before more h
    · exact names_more_subset_putAll before more h

/-- What was put for a name that is put again does not count. -/
theorem putAll_put_of_mem {key : Text} (a : α) {before more : Members α}
    (hbefore : key ∈ names before) (hmore : key ∈ names more) :
    putAll (put key a before) more = putAll before more := by
  induction more generalizing before with
  | nil => cases hmore
  | cons m more ih =>
    rw [putAll_cons, putAll_cons]
    by_cases hm : m.1 = key
    · rw [hm, put_put]
    · have hlater := (List.mem_cons.mp hmore).resolve_left fun heq => hm heq.symm
      rw [put_comm hm _ _ hbefore]
      exact ih (names_subset_put _ _ _ hbefore) hlater

/-- A name that is not put again can be put later, where the others were there. -/
theorem putAll_put_of_notMem {key : Text} (a : α) {before more : Members α}
    (hbefore : names more ⊆ names before) (hmore : key ∉ names more) :
    putAll (put key a before) more = put key a (putAll before more) := by
  induction more generalizing before with
  | nil => rfl
  | cons m more ih =>
    obtain ⟨hm, hlater⟩ := not_or.mp (List.mem_cons.not.mp hmore)
    obtain ⟨hthere, hrest⟩ := List.cons_subset.mp hbefore
    rw [putAll_cons, putAll_cons, ← put_comm hm _ _ hthere]
    exact ih (fun n hn => names_subset_put _ _ _ (hrest hn)) hlater

/-- Members that are put once more change nothing, not even their order, whatever names they share. -/
theorem putAll_putAll (before more : Members α) :
    putAll (putAll before more) more = putAll before more := by
  induction more using List.reverseRecOn with
  | nil => rfl
  | append_singleton more m ih =>
    obtain ⟨key, a⟩ := m
    have hlast (ms : Members α) : putAll ms (more ++ [(key, a)]) = put key a (putAll ms more) :=
      putAll_append ms more [(key, a)]
    rw [hlast, hlast]
    have hmore := names_more_subset_putAll before more
    by_cases hkey : key ∈ names more
    · rw [putAll_put_of_mem a (hmore hkey) hkey, ih]
    · rw [putAll_put_of_notMem a hmore hkey, ih, put_put]

theorem sorted_map {β : Type} (f : α → β) (ms : Members α) :
    sorted (ms.map fun m => (m.1, f m.2)) = (sorted ms).map fun m => (m.1, f m.2) := by
  refine (List.map_mergeSort ?_).symm
  intros
  rfl

theorem perm_sorted (ms : Members α) : (sorted ms).Perm ms := List.mergeSort_perm ms _

theorem nodup_names_sorted {ms : Members α} (h : (names ms).Nodup) : (names (sorted ms)).Nodup :=
  ((perm_sorted ms).map _).nodup_iff.mpr h

/-- In order of their names, which are all different, the members ascend. -/
theorem ascending_sorted {ms : Members α} (h : (names ms).Nodup) :
    (names (sorted ms)).Pairwise fun a b => a.vals < b.vals := by
  have hle : (sorted ms).Pairwise fun a b => a.1.le b.1 = true := by
    refine List.pairwise_mergeSort ?_ ?_ ms
    · exact fun a b c => Text.le_trans
    · exact fun a b => Text.le_total a.1 b.1
  have hnodup := nodup_names_sorted h
  have hnames : (names (sorted ms)).Pairwise fun a b => a.le b = true := List.pairwise_map.mpr hle
  exact (hnames.and hnodup).imp fun hab => Text.lt_of_le hab.1 hab.2

/-- Members that ascend are what sorting makes of them in any order. -/
theorem sorted_eq {as bs : Members α} (hnodup : (names as).Nodup)
    (h : (names bs).Pairwise fun a b => a.vals < b.vals) (hmem : ∀ m, m ∈ as ↔ m ∈ bs) :
    sorted as = bs := by
  have hrow {ms : Members α} (hms : (names ms).Pairwise fun a b => a.vals < b.vals) :
      ms.Pairwise fun a b => a.1.vals < b.1.vals := by
    rwa [names, List.pairwise_map] at hms
  have hne {a b : Text × α} (hab : a.1.vals < b.1.vals) : a ≠ b := by
    rintro rfl
    exact List.lt_irrefl _ hab
  have has : as.Nodup := List.Pairwise.of_map Prod.fst (fun a b hab heq => hab (heq ▸ rfl)) hnodup
  have hbs : bs.Nodup := (hrow h).imp hne
  have hperm : (sorted as).Perm bs :=
    (perm_sorted as).trans ((List.perm_ext_iff_of_nodup has hbs).mpr hmem)
  refine hperm.eq_of_pairwise (fun a b _ _ hab hba => ?_) (hrow (ascending_sorted hnodup)) (hrow h)
  exact absurd (List.lt_trans hab hba) (List.lt_irrefl _)

/-- In order, members are settled by what each name stands for. -/
theorem sorted_congr {as bs : Members α} (has : (names as).Nodup) (hbs : (names bs).Nodup)
    (h : ∀ n, get? n as = get? n bs) : sorted as = sorted bs := by
  refine sorted_eq has (ascending_sorted hbs) fun m => ?_
  rw [(perm_sorted bs).mem_iff]
  constructor
  · exact fun hm => mem_of_get? ((h m.1).symm.trans (get?_of_mem has hm))
  · exact fun hm => mem_of_get? ((h m.1).trans (get?_of_mem hbs hm))

/-- Members are settled by their names and by what each of these stands for. -/
theorem ext {as bs : Members α} (hnodup : (names as).Nodup) (hnames : names bs = names as)
    (h : ∀ n ∈ names as, get? n bs = get? n as) : bs = as := by
  induction as generalizing bs with
  | nil => exact List.map_eq_nil_iff.mp hnames
  | cons a as ih =>
    cases bs with
    | nil => cases hnames
    | cons b bs =>
      obtain ⟨hname, hnames⟩ := List.cons.inj hnames
      obtain ⟨ha, hnodup⟩ := List.nodup_cons.mp hnodup
      have hhead := h a.1 List.mem_cons_self
      rw [get?_cons, get?_cons, if_pos hname.symm, if_pos rfl] at hhead
      have htail (n : Text) (hn : n ∈ names as) : get? n bs = get? n as := by
        have hne : n ≠ a.1 := by
          rintro rfl
          exact ha hn
        have hne' : n ≠ b.1 := fun heq => hne (heq.trans hname)
        have heq := h n (List.mem_cons_of_mem _ hn)
        rwa [get?_cons, get?_cons, if_neg hne, if_neg hne'] at heq
      rw [Prod.ext hname (Option.some.inj hhead), ih hnodup hnames htail]

end Terraload.Members
