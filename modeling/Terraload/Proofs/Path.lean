import Mathlib.Data.List.Basic
import Mathlib.Data.List.Induction
import Mathlib.Data.List.TakeWhile
import Terraload.Path
/-!
The parts of a path, and the rows of names that two dots leave as they are.
-/
namespace Terraload

namespace Text

variable {c : CodePoint} {ps : List Text} {p t : Text}

theorem splitOn_eq (c : CodePoint) (t : Text) : splitOn c t = List.splitOn c t := by
  induction t with
  | nil => rfl
  | cons a t ih =>
    rw [splitOn, ih, List.splitOn_cons_eq_if_modifyHead]
    by_cases h : a = c
    · rw [if_pos h, if_pos (by simpa using h)]
    · rw [if_neg h, if_neg (by simpa using h)]
      cases hsplit : List.splitOn c t with
      | nil => exact absurd hsplit (List.splitOn_ne_nil c t)
      | cons p ps => rfl

theorem join_eq (sep : Text) (ps : List Text) : join sep ps = sep.intercalate ps := by
  induction ps with
  | nil => rfl
  | cons p ps ih =>
    cases ps with
    | nil => rw [join, List.intercalate_singleton]
    | cons q ps => rw [join, ih, List.intercalate_cons_cons]; simp

theorem join_splitOn (c : CodePoint) (t : Text) : join [c] (splitOn c t) = t := by
  rw [join_eq, splitOn_eq, List.intercalate_splitOn]

theorem splitOn_join (h : ∀ p ∈ ps, c ∉ p) (hne : ps ≠ []) : splitOn c (join [c] ps) = ps := by
  rw [join_eq, splitOn_eq, List.splitOn_intercalate c h hne]

theorem splitOn_append (c : CodePoint) (s t : Text) :
    splitOn c (s ++ c :: t) = splitOn c s ++ splitOn c t := by
  simp only [splitOn_eq, List.splitOn_append_cons_self]

theorem splitOn_ne_nil (c : CodePoint) (t : Text) : splitOn c t ≠ [] := by
  rw [splitOn_eq]
  exact List.splitOn_ne_nil c t

theorem splitOn_cons_of_ne {a : CodePoint} (h : a ≠ c) (t : Text) :
    ∃ p ps, splitOn c t = p :: ps ∧ splitOn c (a :: t) = (a :: p) :: ps := by
  cases hsplit : splitOn c t with
  | nil => exact absurd hsplit (splitOn_ne_nil c t)
  | cons p ps => exact ⟨p, ps, rfl, by rw [splitOn, if_neg h, hsplit]⟩

theorem notMem_of_mem_splitOn (h : p ∈ splitOn c t) : c ∉ p := by
  induction t generalizing p with
  | nil =>
    rw [List.mem_singleton.mp h]
    exact List.not_mem_nil
  | cons a t ih =>
    by_cases ha : a = c
    · rw [splitOn, if_pos ha] at h
      obtain rfl | h := List.mem_cons.mp h
      · exact List.not_mem_nil
      · exact ih h
    · obtain ⟨q, ps, hsplit, heq⟩ := splitOn_cons_of_ne ha t
      rw [heq] at h
      obtain rfl | h := List.mem_cons.mp h
      · have hq : c ∉ q := ih (by rw [hsplit]; exact List.mem_cons_self)
        intro hc
        obtain rfl | hc := List.mem_cons.mp hc
        · exact ha rfl
        · exact hq hc
      · exact ih (by rw [hsplit]; exact List.mem_cons_of_mem _ h)

theorem mem_join {a : CodePoint} (h : a ∈ join [c] ps) : a = c ∨ ∃ p ∈ ps, a ∈ p := by
  induction ps with
  | nil => cases h
  | cons p ps ih =>
    cases ps with
    | nil => exact .inr ⟨p, by simp, h⟩
    | cons q ps =>
      have hjoin : join [c] (p :: q :: ps) = p ++ c :: join [c] (q :: ps) := by simp [join]
      rw [hjoin] at h
      obtain h | h := List.mem_append.mp h
      · exact .inr ⟨p, by simp, h⟩
      obtain rfl | h := List.mem_cons.mp h
      · exact .inl rfl
      obtain h | ⟨r, hr, ha⟩ := ih h
      · exact .inl h
      · exact .inr ⟨r, List.mem_cons_of_mem _ hr, ha⟩

theorem mem_join_of_mem {a : CodePoint} (hp : p ∈ ps) (ha : a ∈ p) : a ∈ join [c] ps := by
  induction ps with
  | nil => cases hp
  | cons q ps ih =>
    cases ps with
    | nil => rwa [List.mem_singleton.mp hp] at ha
    | cons r ps =>
      have hjoin : join [c] (q :: r :: ps) = q ++ c :: join [c] (r :: ps) := by simp [join]
      rw [hjoin]
      obtain rfl | hp := List.mem_cons.mp hp
      · exact List.mem_append_left _ ha
      · exact List.mem_append_right _ (List.mem_cons_of_mem _ (ih hp))

end Text

namespace Path

variable {rooted : Bool} {ns stack : List Text} {n c p : Text}

theorem ofParts_parts (p : Text) : ofParts (parts p) = p := Text.join_splitOn slash p

theorem parts_ofParts (h : ∀ n ∈ ns, slash ∉ n) (hne : ns ≠ []) : parts (ofParts ns) = ns :=
  Text.splitOn_join h hne

theorem parts_root (p : Text) : parts (slash :: p) = [] :: parts p := Text.splitOn_append slash [] p

theorem slash_notMem_of_mem_parts (h : n ∈ parts p) : slash ∉ n := Text.notMem_of_mem_splitOn h

/-- Names that cleaning leaves as they are: none is empty or a dot, and two dots stand only in
front, and not behind a root. -/
structure Settled (rooted : Bool) (ns : List Text) : Prop where
  said : ∀ n ∈ ns, n ≠ [] ∧ n ≠ dot
  front : ns.Pairwise fun a b => b = dotdot → a = dotdot
  root : rooted = true → dotdot ∉ ns

theorem settled_nil : Settled rooted [] := ⟨by simp, .nil, by simp⟩

theorem Settled.sublist {ms : List Text} (h : Settled rooted ns) (hms : ms.Sublist ns) :
    Settled rooted ms where
  said := fun n hn => h.said n (hms.subset hn)
  front := h.front.sublist hms
  root := fun hr hn => h.root hr (hms.subset hn)

theorem push_name (h : c ≠ dotdot) : push rooted stack c = c :: stack := by
  simp [push, h]

theorem Settled.push (h : Settled rooted stack.reverse) (hc : c ≠ [] ∧ c ≠ dot) :
    Settled rooted (push rooted stack c).reverse := by
  by_cases hup : c = dotdot
  · subst hup
    cases stack with
    | nil =>
      cases rooted with
      | true => exact settled_nil
      | false => exact ⟨by simpa [Path.push] using hc, by simp [Path.push], by simp⟩
    | cons d rest =>
      rw [List.reverse_cons] at h
      by_cases hd : d = dotdot
      · have hroot : rooted ≠ true := fun hr => h.root hr (by simp [hd])
        have hpush : Path.push rooted (d :: rest) dotdot = dotdot :: d :: rest := by
          simp [Path.push, hd]
        rw [hpush, List.reverse_cons, List.reverse_cons]
        refine ⟨?_, ?_, fun hr => absurd hr hroot⟩
        · intro n hn
          obtain hn | hn := List.mem_append.mp hn
          · exact h.said n hn
          · rw [List.mem_singleton.mp hn]
            exact hc
        · refine List.pairwise_append.mpr ⟨h.front, List.pairwise_singleton _ _, ?_⟩
          intro a ha _ _ _
          obtain ha | ha := List.mem_append.mp ha
          · exact (List.pairwise_append.mp h.front).2.2 a ha d (by simp) hd
          · rw [List.mem_singleton.mp ha, hd]
      · have hpush : Path.push rooted (d :: rest) dotdot = rest := by
          simp [Path.push, hd]
        rw [hpush]
        exact h.sublist (List.sublist_append_left _ _)
  · rw [push_name hup, List.reverse_cons]
    refine ⟨?_, ?_, ?_⟩
    · intro n hn
      obtain hn | hn := List.mem_append.mp hn
      · exact h.said n hn
      · rw [List.mem_singleton.mp hn]
        exact hc
    · refine List.pairwise_append.mpr ⟨h.front, List.pairwise_singleton _ _, ?_⟩
      intro a _ b hb hbup
      rw [List.mem_singleton.mp hb] at hbup
      exact absurd hbup hup
    · intro hr hn
      obtain hn | hn := List.mem_append.mp hn
      · exact h.root hr hn
      · exact hup (List.mem_singleton.mp hn).symm

theorem Settled.foldl_push (hns : ∀ n ∈ ns, n ≠ [] ∧ n ≠ dot) (h : Settled rooted stack.reverse) :
    Settled rooted (ns.foldl (Path.push rooted) stack).reverse := by
  induction ns generalizing stack with
  | nil => exact h
  | cons n ns ih => exact ih (fun m hm => hns m (by simp [hm])) (h.push (hns n (by simp)))

/-- Settled names are pushed one after another. -/
theorem Settled.foldl_eq (h : Settled rooted ns) : ns.foldl (Path.push rooted) [] = ns.reverse := by
  induction ns using List.reverseRecOn with
  | nil => rfl
  | append_singleton ns c ih =>
    have ih := ih (h.sublist (List.sublist_append_left _ _))
    rw [List.foldl_append, ih, List.reverse_append]
    by_cases hup : c = dotdot
    · subst hup
      have hroot : rooted = false := by
        rw [← Bool.not_eq_true]
        exact fun hr => h.root hr (by simp)
      have hfront (a : Text) (ha : a ∈ ns) : a = dotdot :=
        (List.pairwise_append.mp h.front).2.2 a ha dotdot (by simp) rfl
      cases hrev : ns.reverse with
      | nil => simp [Path.push, hroot]
      | cons d rest =>
        have hd := hfront d (by rw [← List.mem_reverse, hrev]; simp)
        simp [Path.push, hd]
    · exact push_name hup

theorem mem_push {m : Text} (h : m ∈ push rooted stack c) : m = c ∨ m ∈ stack := by
  by_cases hup : c = dotdot
  · subst hup
    cases stack with
    | nil =>
      cases rooted with
      | true => cases h
      | false => exact .inl (List.mem_singleton.mp h)
    | cons d rest =>
      by_cases hd : d = dotdot
      · simp only [push, hd] at h ⊢
        exact List.mem_cons.mp h
      · have hpush : push rooted (d :: rest) dotdot = rest := by simp [push, hd]
        rw [hpush] at h
        exact .inr (List.mem_cons_of_mem _ h)
  · rw [push_name hup] at h
    exact List.mem_cons.mp h

theorem mem_foldl_push {m : Text} (h : m ∈ ns.foldl (push rooted) stack) : m ∈ ns ∨ m ∈ stack := by
  induction ns generalizing stack with
  | nil => exact .inr h
  | cons n ns ih =>
    obtain h | h := ih h
    · exact .inl (List.mem_cons_of_mem _ h)
    obtain rfl | h := mem_push h
    · exact .inl List.mem_cons_self
    · exact .inr h

def Relative (p : Text) : Prop := p.head? ≠ some slash

instance (p : Text) : Decidable (Relative p) := inferInstanceAs (Decidable (_ ≠ _))

theorem relative_of_parts (h : [] ∉ parts p) : Relative p := by
  intro hhead
  cases p with
  | nil => cases hhead
  | cons a p =>
    cases Option.some.inj hhead
    exact h (by rw [parts_root]; exact List.mem_cons_self)

theorem root_of_relative (h : Relative p) : root p = [] := by
  unfold root
  split
  · exact absurd rfl h
  · exact absurd rfl h
  · exact absurd rfl h
  · rfl

theorem root_slash (h : Relative p) : root (slash :: p) = [slash] := by
  cases p with
  | nil => rfl
  | cons a p =>
    have ha : a ≠ .char '/' := fun ha => h (by rw [ha]; rfl)
    simp [root, slash, ha]

/-- A path is relative, or starts with a slash that stands alone, or with two at least. -/
theorem root_cases (p : Text) : Relative p ∧ root p = [] ∨
    (∃ q, p = slash :: q ∧ Relative q ∧ root p = [slash]) ∨ [slash, slash] <+: p := by
  cases p with
  | nil => exact .inl ⟨by simp [Relative], rfl⟩
  | cons a p =>
    by_cases ha : a = slash
    · subst ha
      right
      cases p with
      | nil => exact .inl ⟨[], rfl, by simp [Relative], rfl⟩
      | cons b p =>
        by_cases hb : b = slash
        · subst hb
          exact .inr ⟨p, rfl⟩
        · have hrel : Relative (b :: p) := by simpa [Relative] using hb
          exact .inl ⟨b :: p, rfl, hrel, root_slash hrel⟩
    · have hrel : Relative (a :: p) := by simpa [Relative] using ha
      exact .inl ⟨hrel, root_of_relative hrel⟩

theorem mem_names : n ∈ names p ↔ n ∈ parts p ∧ n ≠ [] ∧ n ≠ dot := by
  simp [names]

def reduced (p : Text) : List Text :=
  ((names p).foldl (push (!(root p).isEmpty)) []).reverse

theorem settled_reduced (p : Text) : Settled (!(root p).isEmpty) (reduced p) :=
  Settled.foldl_push (fun _ hn => (mem_names.mp hn).2) settled_nil

theorem mem_reduced (h : n ∈ reduced p) : n ∈ names p := by
  obtain h | h := mem_foldl_push (List.mem_reverse.mp h)
  · exact h
  · cases h

theorem slash_notMem_of_mem_reduced (h : n ∈ reduced p) : slash ∉ n :=
  slash_notMem_of_mem_parts (mem_names.mp (mem_reduced h)).1

theorem normalize_of_nil (h : root p ++ ofParts (reduced p) = []) : normalize p = dot := by
  rw [reduced] at h
  simp only [normalize, h]

theorem normalize_of_ne (h : root p ++ ofParts (reduced p) ≠ []) :
    normalize p = root p ++ ofParts (reduced p) := by
  unfold normalize
  dsimp only
  split
  next heq => exact absurd heq h
  next => rfl

theorem notMem_normalize {a : CodePoint} (hslash : a ≠ slash) (hdot : a ∉ dot) (h : a ∉ p) :
    a ∉ normalize p := by
  by_cases hnil : root p ++ ofParts (reduced p) = []
  · rwa [normalize_of_nil hnil]
  · rw [normalize_of_ne hnil, List.mem_append, not_or]
    constructor
    · have hroot : ∀ b ∈ root p, b = slash := by
        unfold root
        split <;> simp [slash]
      exact fun ha => hslash (hroot a ha)
    · intro ha
      obtain ha | ⟨n, hn, ha⟩ := Text.mem_join ha
      · exact hslash ha
      · have hn := (mem_names.mp (mem_reduced hn)).1
        have hp : a ∈ ofParts (parts p) := Text.mem_join_of_mem hn ha
        rw [ofParts_parts] at hp
        exact h hp

theorem ofParts_ne_nil (hs : ∀ n ∈ ns, slash ∉ n) (hn : [] ∉ ns) (hne : ns ≠ []) :
    ofParts ns ≠ [] := by
  intro hnil
  have hparts := parts_ofParts hs hne
  rw [hnil] at hparts
  rw [← hparts] at hn
  exact hn (by simp [parts, Text.splitOn])

theorem relative_ofParts (hs : ∀ n ∈ ns, slash ∉ n) (hn : [] ∉ ns) : Relative (ofParts ns) := by
  by_cases hne : ns = []
  · rw [hne]
    simp [Relative, ofParts, Text.join]
  · exact relative_of_parts (by rwa [parts_ofParts hs hne])

theorem names_ofParts (hsaid : ∀ n ∈ ns, n ≠ [] ∧ n ≠ dot) (hs : ∀ n ∈ ns, slash ∉ n) :
    names (ofParts ns) = ns := by
  by_cases hne : ns = []
  · rw [hne]
    rfl
  · rw [names, parts_ofParts hs hne, List.filter_eq_self]
    simpa using hsaid

/-- A row of settled names is a normalized path. -/
theorem normalize_ofParts (h : Settled false ns) (hs : ∀ n ∈ ns, slash ∉ n) (hne : ns ≠ []) :
    normalize (ofParts ns) = ofParts ns := by
  have hn : [] ∉ ns := fun hn => (h.said _ hn).1 rfl
  have hroot := root_of_relative (relative_ofParts hs hn)
  have hreduced : reduced (ofParts ns) = ns := by
    rw [reduced, hroot, names_ofParts h.said hs, List.isEmpty_nil, Bool.not_true, h.foldl_eq,
      List.reverse_reverse]
  rw [normalize_of_ne, hroot, hreduced, List.nil_append]
  rw [hroot, hreduced, List.nil_append]
  exact ofParts_ne_nil hs hn hne

theorem normalize_slash (h : Settled true ns) (hs : ∀ n ∈ ns, slash ∉ n) :
    normalize (slash :: ofParts ns) = slash :: ofParts ns := by
  have hn : [] ∉ ns := fun hn => (h.said _ hn).1 rfl
  have hroot := root_slash (relative_ofParts hs hn)
  have hnames : names (slash :: ofParts ns) = ns := by
    rw [names, parts_root]
    exact names_ofParts h.said hs
  have hreduced : reduced (slash :: ofParts ns) = ns := by
    rw [reduced, hroot, hnames, List.isEmpty_cons, Bool.not_false, h.foldl_eq,
      List.reverse_reverse]
  rw [normalize_of_ne (by simp [hroot]), hroot, hreduced]
  rfl

def Front (f : Text) : Prop := ∀ c, f.getLast? = some c → c = slash

theorem exists_front (p : Text) : ∃ f n, p = f ++ n ∧ Front f ∧ slash ∉ n := by
  refine ⟨(p.reverse.dropWhile (· != slash)).reverse, (p.reverse.takeWhile (· != slash)).reverse,
    ?_, fun c hc => ?_, fun hmem => ?_⟩
  · rw [← List.reverse_append, List.takeWhile_append_dropWhile, List.reverse_reverse]
  · rw [List.getLast?_reverse] at hc
    have hhead := List.head?_dropWhile_not (· != slash) p.reverse
    rw [hc] at hhead
    simpa using hhead
  · have hne := List.all_eq_true.mp List.all_takeWhile _ (List.mem_reverse.mp hmem)
    simp at hne

theorem split_front {f : Text} (hf : Front f) (hn : slash ∉ n) : split (f ++ n) =
    (if f.all (· == slash) then f else (f.reverse.dropWhile (· == slash)).reverse, n) := by
  have htail : ((f ++ n).reverse.takeWhile (· != slash)).reverse = n := by
    have hall : ∀ c ∈ n.reverse, (c != slash) = true := fun c hc => by
      rw [bne_iff_ne]
      rintro rfl
      exact hn (List.mem_reverse.mp hc)
    rw [List.reverse_append, List.takeWhile_append_of_pos hall]
    cases hreverse : f.reverse with
    | nil => simp
    | cons c r =>
      have hc : c = slash := hf c (by rw [← List.head?_reverse, hreverse]; rfl)
      rw [List.takeWhile_cons_of_neg (by simp [hc]), List.append_nil, List.reverse_reverse]
  have htake : (f ++ n).take ((f ++ n).length - n.length) = f := by simp
  simp only [split, htail, htake]
  split <;> rfl

theorem split_of_notMem (hn : slash ∉ n) : split n = ([], n) :=
  split_front (f := []) (fun _ hc => Option.noConfusion rfl (heq_of_eq hc)) hn

/-- A name in a directory. -/
theorem split_name {d : Text} (hd : d ≠ []) (hlast : d.getLast? ≠ some slash) (hn : slash ∉ n) :
    split (d ++ slash :: n) = (d, n) := by
  have hf : Front (d ++ [slash]) := fun c hc => by simpa using hc.symm
  obtain rfl | ⟨e, c, rfl⟩ := List.eq_nil_or_concat' d
  · exact absurd rfl hd
  have hc : c ≠ slash := fun heq => hlast (by rw [heq]; simp)
  have hsplit := split_front hf hn
  rw [if_neg (by simp [hc])] at hsplit
  simpa [hc] using hsplit

/-- What stands in front of the last part is all in front of it, unless slashes end it. -/
theorem split_fst_cases (p : Text) : ∃ f n, p = f ++ n ∧ (split p).2 = n ∧
    ((split p).1 = f ∧ (∀ c ∈ f, c = slash) ∨
      (split p).1 ≠ [] ∧ (split p).1.length < f.length) := by
  obtain ⟨f, n, rfl, hf, hn⟩ := exists_front p
  refine ⟨f, n, rfl, by rw [split_front hf hn], ?_⟩
  rw [split_front hf hn]
  by_cases hall : f.all (· == slash) = true
  · rw [if_pos hall]
    exact .inl ⟨rfl, fun c hc => by simpa using List.all_eq_true.mp hall c hc⟩
  rw [if_neg hall]
  right
  constructor
  · intro hnil
    rw [List.reverse_eq_nil_iff, List.dropWhile_eq_nil_iff] at hnil
    exact hall (List.all_eq_true.mpr fun c hc => hnil c (List.mem_reverse.mpr hc))
  · obtain rfl | ⟨e, c, rfl⟩ := List.eq_nil_or_concat' f
    · exact absurd rfl hall
    have hc : c = slash := hf c (by simp)
    have hlength := (List.dropWhile_suffix (l := e.reverse) (· == slash)).length_le
    rw [List.reverse_append, List.reverse_singleton, List.singleton_append,
      List.dropWhile_cons_of_pos (by simp [hc]), List.length_reverse, List.length_append]
    rw [List.length_reverse] at hlength
    exact Nat.lt_succ_of_le hlength

/-- A path in front of whose last part nothing stands. -/
theorem split_snd_of_nil (h : (split p).1 = []) : (split p).2 = p := by
  obtain ⟨f, n, rfl, hsnd, ⟨hfst, -⟩ | ⟨hne, -⟩⟩ := split_fst_cases p
  · rw [hsnd, ← hfst, h, List.nil_append]
  · exact absurd h hne

/-- Splitting leaves out slashes alone. -/
theorem mem_split {a : CodePoint} (ha : a ≠ slash) (h : a ∈ p) :
    a ∈ (split p).1 ∨ a ∈ (split p).2 := by
  obtain ⟨f, n, rfl, hf, hn⟩ := exists_front p
  rw [split_front hf hn]
  obtain h | h := List.mem_append.mp h
  · left
    split
    · exact h
    · have hparts : f.reverse.takeWhile (· == slash) ++ f.reverse.dropWhile (· == slash) =
          f.reverse := List.takeWhile_append_dropWhile
      rw [← List.mem_reverse, ← hparts] at h
      obtain h | h := List.mem_append.mp h
      · exact absurd (by simpa using List.all_eq_true.mp List.all_takeWhile _ h) ha
      · exact List.mem_reverse.mpr h
  · exact .inr h

/-- Only slashes stand in front of their own last part. -/
theorem eq_slash_of_split (h : (split p).1 = p) : ∀ c ∈ p, c = slash := by
  obtain ⟨f, n, rfl, -, ⟨hfst, hall⟩ | ⟨-, hlt⟩⟩ := split_fst_cases p
  · rwa [← hfst.symm.trans h]
  · rw [h, List.length_append] at hlt
    omega

end Path

end Terraload
