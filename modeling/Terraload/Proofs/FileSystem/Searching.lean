import Terraload.Proofs.FileSystem.Relative
import Terraload.Proofs.Text
import Terraload.Session
/-!
What a search for a pattern finds has no code point that is foreign to all names, unless the search
breaks off: such a code point leads nowhere, and only in the first directory is it listed.
-/
namespace Terraload

open Terraload.Path

def nulMark : CodePoint := .char '\x00'

variable {fs : FileSystem} {deep directories follow : Bool} {a : CodePoint} {d n p part path : Text}
  {here : Place} {steps : List Text} {r : Place × Node} {e : PathError}

namespace FileSystem

theorem walkWith_error {jump : Place → List Text → Except PathError (Place × Node)}
    (hjump : ∀ {here steps e}, jump here steps = .error e → e ≠ .nul ∧ e ≠ .unencodable)
    (h : walkWith fs follow jump here steps = .error e) : e ≠ .nul ∧ e ≠ .unencodable := by
  induction steps generalizing here with
  | nil => cases h
  | cons c rest ih =>
    unfold walkWith at h
    split at h
    · exact ih h
    split at h
    · exact ih h
    split at h
    · cases h
      exact ⟨nofun, nofun⟩
    dsimp only at h
    split at h
    · cases h
      exact ⟨nofun, nofun⟩
    · exact ih h
    · split at h <;> cases h
      exact ⟨nofun, nofun⟩
    · split at h
      · cases h
      split at h
      · cases h
        exact ⟨nofun, nofun⟩
      · exact hjump h

theorem walk_error {limit : Nat} (h : fs.walk follow limit here steps = .error e) :
    e ≠ .nul ∧ e ≠ .unencodable := by
  induction limit generalizing here steps e with
  | zero =>
    refine walkWith_error (fun hjump => ?_) h
    cases hjump
    exact ⟨nofun, nofun⟩
  | succ limit ih => exact walkWith_error ih h

theorem find_of_nul (h : nulMark ∈ p) : fs.find follow p = .error .nul := by
  rw [find, if_pos (by simpa [nulMark] using h)]

theorem find_error (hnul : nulMark ∉ p) (h : fs.find follow p = .error e) :
    e ≠ .nul ∧ e ≠ .unencodable := by
  rw [find, if_neg (by simpa [nulMark] using hnul)] at h
  split at h
  · cases h
    exact ⟨nofun, nofun⟩
  split at h
  · cases h
    exact ⟨nofun, nofun⟩
  · exact walk_error h

theorem find_eq_ok : fs.find follow p = .ok r ↔ fs.locate follow p = .ok r := by
  unfold locate
  split
  next found hfind => rw [hfind]
  next e hfind => rw [hfind]; exact ⟨nofun, nofun⟩

theorem locate_error (h : fs.locate follow p = .error e) : ∃ e', fs.find follow p = .error e' ∧
    e = if p.all Encoding.encodable then e' else .unencodable := by
  unfold locate at h
  split at h
  · cases h
  next e' hfind => exact ⟨e', hfind, (Except.error.inj h).symm⟩

theorem locate_eq_find (hp : p.all Encoding.encodable = true) :
    fs.locate follow p = fs.find follow p := by
  unfold locate
  split
  next hfind => rw [hfind]
  next hfind => rw [hfind, if_pos hp]

theorem locate_of_nul (hnul : nulMark ∈ p) (hp : p.all Encoding.encodable = true) :
    fs.locate follow p = .error .nul := by
  rw [locate_eq_find hp, find_of_nul hnul]

theorem locate_ne_nul (hnul : nulMark ∉ p) : fs.locate follow p ≠ .error .nul := by
  intro h
  obtain ⟨e, hfind, heq⟩ := locate_error h
  split at heq
  · exact (find_error hnul hfind).1 heq.symm
  · cases heq

theorem locate_ne_unencodable (hp : p.all Encoding.encodable = true) :
    fs.locate follow p ≠ .error .unencodable := by
  intro h
  obtain ⟨e, hfind, heq⟩ := locate_error h
  rw [if_pos hp] at heq
  by_cases hnul : nulMark ∈ p
  · rw [find_of_nul hnul] at hfind
    cases hfind
    cases heq
  · exact (find_error hnul hfind).2 heq.symm

theorem notMem_of_locate (h : fs.locate follow p = .ok r) : nulMark ∉ p := by
  intro hnul
  rw [← find_eq_ok, find_of_nul hnul] at h
  cases h

theorem exists?_eq_true : fs.exists? p = true ↔ ∃ r, fs.locate true p = .ok r := by
  rw [exists?]
  cases fs.locate true p with
  | error e => exact ⟨nofun, nofun⟩
  | ok r => exact ⟨fun _ => ⟨r, rfl⟩, fun _ => rfl⟩

theorem linkExists?_eq_true : fs.linkExists? p = true ↔ ∃ r, fs.locate false p = .ok r := by
  rw [linkExists?]
  cases fs.locate false p with
  | error e => exact ⟨nofun, nofun⟩
  | ok r => exact ⟨fun _ => ⟨r, rfl⟩, fun _ => rfl⟩

theorem isDirectory_eq_true :
    fs.isDirectory p = true ↔ ∃ q, fs.locate true p = .ok (q, .directory) := by
  unfold isDirectory
  split
  next q hlocate => exact ⟨fun _ => ⟨q, hlocate⟩, fun _ => rfl⟩
  next hother =>
    refine ⟨fun h => Bool.noConfusion h, fun ⟨q, hlocate⟩ => absurd hlocate (hother q)⟩

theorem notMem_of_exists? (h : fs.exists? p = true) : nulMark ∉ p := by
  obtain ⟨r, hr⟩ := exists?_eq_true.mp h
  exact notMem_of_locate hr

end FileSystem

theorem notMem_clean {a : CodePoint} (hslash : a ≠ slash) (hdot : a ∉ dot) {p : Text} (h : a ∉ p) :
    a ∉ clean p := by
  have hroot : a ∉ root p := by
    unfold root
    split <;> simp [hslash]
  have hnames : a ∉ ofParts (names p) := by
    intro hmem
    obtain rfl | ⟨n, hn, ha⟩ := Text.mem_join hmem
    · exact hslash rfl
    · have hparts : a ∈ ofParts (parts p) := Text.mem_join_of_mem (mem_names.mp hn).1 ha
      rw [ofParts_parts] at hparts
      exact h hparts
  unfold clean
  split
  · exact hdot
  · simp [hroot, hnames]

/-- Cleaning leaves out slashes and dots alone. -/
theorem mem_clean {a : CodePoint} (hslash : a ≠ slash) (hdot : a ∉ dot) {p : Text} (h : a ∈ p) :
    a ∈ clean p := by
  have hparts : a ∈ ofParts (parts p) := (ofParts_parts p).symm ▸ h
  obtain rfl | ⟨n, hn, ha⟩ := Text.mem_join hparts
  · exact absurd rfl hslash
  have hnames : n ∈ names p :=
    mem_names.mpr ⟨hn, List.ne_nil_of_mem ha, fun heq => hdot (heq ▸ ha)⟩
  have hrow : a ∈ root p ++ ofParts (names p) :=
    List.mem_append_right _ (Text.mem_join_of_mem hnames ha)
  unfold clean
  split
  next hnil => exact absurd hnil (List.ne_nil_of_mem hrow)
  next => exact hrow

theorem all_clean (p : Text) :
    (clean p).all Encoding.encodable = p.all Encoding.encodable := by
  rw [Bool.eq_iff_iff, List.all_eq_true, List.all_eq_true]
  have hdots : ∀ a, Encoding.encodable a = false → a ≠ slash ∧ a ∉ dot := by
    intro a ha
    refine ⟨?_, fun hmem => ?_⟩
    · rintro rfl
      cases ha
    · rw [List.mem_singleton.mp hmem] at ha
      cases ha
  constructor
  · intro h a ha
    by_contra hcode
    have hfalse := Bool.eq_false_iff.mpr hcode
    exact hcode (h a (mem_clean (hdots a hfalse).1 (hdots a hfalse).2 ha))
  · intro h a ha
    by_contra hcode
    have hfalse := Bool.eq_false_iff.mpr hcode
    exact notMem_clean (hdots a hfalse).1 (hdots a hfalse).2 (fun hmem => hcode (h a hmem)) ha

namespace FileSystem

theorem read_of_nul (hnul : nulMark ∈ p) (hp : p.all Encoding.encodable = true) :
    fs.read p = .error .nulInPath := by
  have hclean : nulMark ∈ clean p := mem_clean (by decide) (by decide) hnul
  simp only [FileSystem.read, locate_of_nul hclean ((all_clean p).trans hp)]
  rfl

theorem read_of_unencodable (hp : p.all Encoding.encodable = false)
    (hthere : fs.exists? (clean p) = false) : fs.read p = .error (.unencodable (clean p)) := by
  cases hlocate : fs.locate true (clean p) with
  | ok r =>
    rw [exists?_eq_true.mpr ⟨r, hlocate⟩] at hthere
    cases hthere
  | error e =>
    obtain ⟨e', -, rfl⟩ := locate_error hlocate
    rw [all_clean, hp, if_neg Bool.false_ne_true] at hlocate
    simp only [FileSystem.read, hlocate]
    rfl

/-- Where a path that can be encoded and has no NUL is not read, the system says why. -/
theorem system_of_read {f : Failure} (hnul : nulMark ∉ p)
    (hp : p.all Encoding.encodable = true) (hread : fs.read p = .error f) : ∃ e, f = .system e := by
  simp only [FileSystem.read] at hread
  split at hread
  · cases hread
  · exact ⟨_, (Except.error.inj hread).symm⟩
  next e hlocate =>
    rw [← Except.error.inj hread]
    cases e with
    | nul => exact absurd hlocate (locate_ne_nul (notMem_clean (by decide) (by decide) hnul))
    | unencodable => exact absurd hlocate (locate_ne_unencodable ((all_clean p).trans hp))
    | _ => exact ⟨_, rfl⟩

theorem system_of_locate {f : Failure} (h : fs.locate true (clean p) = .ok r)
    (hread : fs.read p = .error f) : ∃ e, f = .system e := by
  obtain ⟨q, node⟩ := r
  simp only [FileSystem.read, h] at hread
  cases node with
  | file bytes => cases hread
  | link t | directory => exact ⟨_, (Except.error.inj hread).symm⟩

end FileSystem

/-- A code point in no path of a file: NUL, and what cannot be encoded. -/
def Foreign (a : CodePoint) : Prop := a = nulMark ∨ Encoding.encodable a = false

instance (a : CodePoint) : Decidable (Foreign a) := inferInstanceAs (Decidable (_ ∨ _))

theorem Foreign.ne_slash (h : Foreign a) : a ≠ slash := by
  rintro rfl
  exact absurd h (by decide)

namespace Glob

theorem mem_below {a : CodePoint} (hn : a ∈ n) : a ∈ below d n := by
  unfold below
  split
  · exact hn
  split
  next hempty =>
    rw [List.isEmpty_iff.mp hempty] at hn
    cases hn
  · unfold join
    split
    · exact hn
    split
    · exact List.mem_append_right _ hn
    · exact List.mem_append_right _ (List.mem_cons_of_mem _ hn)

def Searchable (p : Text) : Prop := ∀ q, q <+: p → Wildcard.isMagic q = false → nulMark ∉ q

theorem searchable_of_notMem (h : nulMark ∉ p) : Searchable p := fun _ hq _ hmem => h (hq.mem hmem)

/-- Behind a wildcard nothing is taken as it is. -/
theorem searchable_append {front back : Text} (h : nulMark ∉ front) :
    Searchable (front ++ .char '*' :: back) := by
  intro q hq hplain hmem
  have hfront : front ++ [.char '*'] <+: front ++ .char '*' :: back :=
    (List.prefix_append_right_inj _).mpr (List.prefix_append [_] back)
  obtain hlong | hshort := List.prefix_or_prefix_of_prefix hfront hq
  · have hstar : CodePoint.char '*' ∈ q := hlong.mem (by simp)
    have hmagic : Wildcard.isMagic q = true := List.any_eq_true.mpr ⟨_, hstar, rfl⟩
    rw [hmagic] at hplain
    cases hplain
  · obtain hin | hin := List.mem_append.mp (hshort.mem hmem)
    · exact h hin
    · cases List.mem_singleton.mp hin

theorem plain_of_split (h : (split p).1 = p) : Wildcard.isMagic p = false := by
  refine Bool.eq_false_iff.mpr fun hmagic => ?_
  obtain ⟨c, hc, hwild⟩ := List.any_eq_true.mp hmagic
  rw [eq_slash_of_split h c hc] at hwild
  exact absurd hwild (by decide)

theorem parents_of_magic (fs : FileSystem) (deep : Bool) (limit : Nat)
    (h : Wildcard.isMagic (split p).1 = true) :
    parents fs deep limit p = search fs deep limit true (split p).1 := by
  have hne : (split p).1 ≠ p := fun heq => by
    rw [heq, plain_of_split heq] at h
    cases h
  simp [parents, h, hne]

theorem parents_of_plain (fs : FileSystem) (deep : Bool) (limit : Nat)
    (h : Wildcard.isMagic (split p).1 = false) : parents fs deep limit p = [(split p).1] := by
  simp [parents, h]

theorem start?_of_magic (limit : Nat) (h : Wildcard.isMagic (split p).1 = true) :
    start? (limit + 1) p = start? limit (split p).1 := by
  have hne : (split p).1 ≠ p := fun heq => by
    rw [heq, plain_of_split heq] at h
    cases h
  have hp : Wildcard.isMagic p = true := by
    obtain ⟨c, hc, hwild⟩ := List.any_eq_true.mp h
    exact List.any_eq_true.mpr ⟨c, (split_head p).mem hc, hwild⟩
  simp [start?, hp, h, hne]

theorem start?_of_plain (limit : Nat) (hp : Wildcard.isMagic p = true)
    (h : Wildcard.isMagic (split p).1 = false) : start? (limit + 1) p = some (split p).1 := by
  simp [start?, hp, h]

theorem start?_plain {limit : Nat} (h : start? limit p = some d) :
    d <+: p ∧ Wildcard.isMagic d = false := by
  induction limit generalizing p with
  | zero => cases h
  | succ limit ih =>
    cases hfront : Wildcard.isMagic (split p).1 with
    | true =>
      rw [start?_of_magic limit hfront] at h
      obtain ⟨hinitial, hplain⟩ := ih h
      exact ⟨hinitial.trans (split_head p), hplain⟩
    | false =>
      cases hp : Wildcard.isMagic p with
      | true =>
        rw [start?_of_plain limit hp hfront] at h
        cases h
        exact ⟨split_head p, hfront⟩
      | false =>
        rw [start?] at h
        simp [hp] at h

/-- What is found goes on from a directory by a name that is found there. -/
theorem mem_search_rows {limit : Nat} (h : Wildcard.isMagic p = true) (hdir : (split p).1 ≠ []) :
    path ∈ search fs deep (limit + 1) directories p ↔ ∃ d ∈ parents fs deep limit p,
      ∃ n ∈ inDirectory fs deep directories d (split p).2, path = join d n := by
  rw [search_rows limit h hdir, List.mem_flatMap]
  simp only [List.mem_map, eq_comm]

/-- A pattern without wildcards is found where it leads to something. -/
theorem of_mem_search_plain {limit : Nat} (h : Wildcard.isMagic p = false)
    (hpath : path ∈ search fs deep (limit + 1) directories p) : path = p ∧
      ((split p).2 = [] ∧ (∃ r, fs.locate true (split p).1 = .ok r) ∨
        ∃ r, fs.locate false p = .ok r) := by
  rw [search_plain limit h, List.mem_ite_nil_right, List.mem_singleton] at hpath
  obtain ⟨hthere, rfl⟩ := hpath
  refine ⟨rfl, ?_⟩
  by_cases hempty : (split path).2 = []
  · rw [hempty, List.isEmpty_nil, if_pos rfl] at hthere
    exact .inl ⟨hempty, (FileSystem.isDirectory_eq_true.mp hthere).imp' (·, .directory) fun _ h => h⟩
  · rw [if_neg (by simpa using hempty)] at hthere
    exact .inr (FileSystem.linkExists?_eq_true.mp hthere)

structure Excludes (fs : FileSystem) (a : CodePoint) : Prop where
  names : fs.Without a
  paths : ∀ {follow : Bool} {p : Text} {r : Place × Node}, fs.locate follow p = .ok r → a ∉ p

namespace Excludes

variable (hfs : Excludes fs a)
include hfs

/-- A name without wildcards is found only where it leads to something. -/
theorem single (h : n ∈ single fs d part) : a ∉ n := by
  unfold Glob.single at h
  split at h
  next hempty =>
    split at h
    · rw [List.mem_singleton.mp h, List.isEmpty_iff.mp hempty]
      exact List.not_mem_nil
    · cases h
  · split at h
    next hthere =>
      rw [List.mem_singleton.mp h]
      obtain ⟨r, hr⟩ := FileSystem.linkExists?_eq_true.mp hthere
      exact fun hmem => hfs.paths hr (mem_below hmem)
    · cases h

theorem inDirectory (ha : a ≠ slash) (h : n ∈ inDirectory fs deep directories d part) :
    a ∉ n := by
  cases hpart : Wildcard.isMagic part with
  | false =>
    rw [Glob.inDirectory, hpart] at h
    exact hfs.single h
  | true => exact (matches_of_magic hpart h).without hfs.names fun _ => ha

/-- A pattern finds no path with the code point in it, unless the directory that the search starts in
has it in its path. -/
theorem search (ha : a ≠ slash) {limit : Nat} (hstart : ∀ d, start? limit p = some d → a ∉ d)
    (hpath : path ∈ search fs deep limit directories p) : a ∉ path := by
  induction limit generalizing p directories path with
  | zero => cases hpath
  | succ limit ih =>
    cases hmagic : Wildcard.isMagic p with
    | false =>
      obtain ⟨rfl, ⟨hempty, r, hr⟩ | ⟨r, hr⟩⟩ := of_mem_search_plain hmagic hpath
      · intro hmem
        obtain hmem | hmem := mem_split ha hmem
        · exact hfs.paths hr hmem
        · rw [hempty] at hmem
          cases hmem
      · exact hfs.paths hr
    | true =>
      by_cases hdir : (split p).1 = []
      · rw [search_part limit hmagic hdir] at hpath
        exact hfs.inDirectory ha hpath
      obtain ⟨d, hd, n, hn, rfl⟩ := (mem_search_rows hmagic hdir).mp hpath
      refine notMem_join ha ?_ (hfs.inDirectory ha hn)
      cases hfront : Wildcard.isMagic (split p).1 with
      | true =>
        rw [parents_of_magic fs deep limit hfront] at hd
        refine ih (fun d hd => hstart d ?_) hd
        rwa [start?_of_magic limit hfront]
      | false =>
        rw [parents_of_plain fs deep limit hfront] at hd
        rw [List.mem_singleton.mp hd]
        exact hstart _ (start?_of_plain limit hmagic hfront)

end Excludes

/-- A directory that a search starts in and that cannot be listed has a foreign code point. -/
theorem unlisted?_cases (fs : FileSystem) (p : Text) : unlisted? fs p = none ∨
    ∃ d, start? (p.length + 1) p = some d ∧
      ((unlisted? fs p = some ⟨d, .nul⟩ ∧ nulMark ∈ d) ∨
        unlisted? fs p = some ⟨d, .unencodable⟩ ∧ d.all Encoding.encodable = false) := by
  cases hstart : start? (p.length + 1) p with
  | none => simp [unlisted?, hstart]
  | some d =>
    cases hlocate : fs.locate true d with
    | ok r =>
      left
      obtain ⟨q, node⟩ := r
      cases node <;> simp [unlisted?, hstart, FileSystem.list, hlocate]
    | error e =>
      have hlist : fs.list d = .error e := by simp only [FileSystem.list, hlocate]
      cases e with
      | nul =>
        refine .inr ⟨d, rfl, .inl ⟨by simp [unlisted?, hstart, hlist], ?_⟩⟩
        by_contra hnul
        exact FileSystem.locate_ne_nul hnul hlocate
      | unencodable =>
        refine .inr ⟨d, rfl, .inr ⟨by simp [unlisted?, hstart, hlist], ?_⟩⟩
        by_contra hp
        exact FileSystem.locate_ne_unencodable (Bool.not_eq_false _ ▸ hp) hlocate
      | _ => exact .inl (by simp [unlisted?, hstart, hlist])

/-- The directory that a search starts in is there, or has no foreign code point. -/
theorem notMem_start (hfs : Excludes fs a) (ha : Foreign a) (h : unlisted? fs p = none)
    (hstart : start? (p.length + 1) p = some d) : a ∉ d := by
  cases hlocate : fs.locate true d with
  | ok r => exact hfs.paths hlocate
  | error e =>
    have hlist : fs.list d = .error e := by simp only [FileSystem.list, hlocate]
    have hencodable : d.all Encoding.encodable = true := by
      by_contra hd
      obtain ⟨e', -, rfl⟩ := FileSystem.locate_error hlocate
      simp [unlisted?, hstart, hlist, hd] at h
    obtain rfl | ha := ha
    · intro hnul
      obtain rfl : e = .nul := by
        rw [FileSystem.locate_of_nul hnul hencodable] at hlocate
        exact (Except.error.inj hlocate).symm
      simp [unlisted?, hstart, hlist] at h
    · intro hmem
      rw [List.all_eq_true.mp hencodable a hmem] at ha
      cases ha

theorem paths_eq_ok_iff : (∃ found, paths fs deep p = .ok found) ↔ unlisted? fs p = none := by
  unfold paths
  cases unlisted? fs p with
  | none => simp
  | some u => simp

theorem paths_eq_error {u : Unlisted} : paths fs deep p = .error u ↔ unlisted? fs p = some u := by
  unfold paths
  cases unlisted? fs p with
  | none => simp
  | some v => simp

/-- Unless it starts with two stars, a pattern finds what the search finds. -/
theorem paths_eq_sorted {found : List Text} (h : paths fs deep p = .ok found)
    (hstars : deep = true → p.take 2 ≠ deepMark) :
    found = (search fs deep (p.length + 1) false p).mergeSort Text.le := by
  unfold paths at h
  split at h
  · cases h
  · dsimp only at h
    rw [if_neg (by simpa using hstars)] at h
    exact (Except.ok.inj h).symm

theorem mem_paths {found : List Text} (h : paths fs deep p = .ok found)
    (hstars : deep = true → p.take 2 ≠ deepMark) :
    path ∈ found ↔ path ∈ search fs deep (p.length + 1) false p := by
  rw [paths_eq_sorted h hstars, List.mem_mergeSort]

theorem notMem_of_paths (hfs : Excludes fs a) (ha : Foreign a) {found : List Text}
    (h : paths fs deep p = .ok found) (hpath : path ∈ found) : a ∉ path :=
  hfs.search ha.ne_slash (fun _ => notMem_start hfs ha (paths_eq_ok_iff.mp ⟨found, h⟩))
    (mem_search_of_paths h hpath)

theorem pairwise_mergeSort (ns : List Text) :
    (ns.mergeSort Text.le).Pairwise fun a b => a.le b = true := by
  refine List.pairwise_mergeSort ?_ ?_ ns
  · exact fun a b c => Text.le_trans
  · exact fun a b => Text.le_total a b

/-- What a pattern finds is in ascending order. -/
theorem paths_sorted {found : List Text} (h : paths fs deep p = .ok found) :
    found.Pairwise fun a b => a.le b = true := by
  unfold paths at h
  split at h
  · cases h
  · cases h
    exact pairwise_mergeSort _

theorem mergeSort_of_perm {ns ms : List Text} (h : ns.Perm ms)
    (hms : ms.Pairwise fun a b => a.le b = true) : ns.mergeSort Text.le = ms :=
  ((List.mergeSort_perm ns _).trans h).eq_of_pairwise (fun _ _ _ _ => Text.eq_of_le)
    (pairwise_mergeSort ns) hms

theorem paths_of_search {found : List Text} (hlisted : unlisted? fs p = none)
    (hstars : (deep && p.take 2 == deepMark) = false)
    (h : (search fs deep (p.length + 1) false p).Perm found)
    (hfound : found.Pairwise fun a b => a.le b = true) : paths fs deep p = .ok found := by
  simp only [paths, hlisted, hstars, Bool.false_eq_true, if_false, mergeSort_of_perm h hfound]

end Glob

end Terraload
