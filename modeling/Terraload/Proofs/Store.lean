import Terraload.Proofs.Members
import Terraload.Store
/-!
The store as a map. After files were put into it in any order, each key leads to the file that was
put under it last, and the keys stand in ascending order, each once. Files under different keys can
be put in either order.
-/
namespace Terraload.Store

variable {s : Store} {key other : Text} {d : Document} {bytes : Bytes}

theorem mem_keys : key ∈ s.keys ↔ key ∈ s.templates.names := by
  simp only [keys, Members.names, Members.sorted, List.mem_map, List.mem_mergeSort]

theorem mem_keys_put : key ∈ (s.put other d bytes).keys ↔ key ∈ s.keys ∨ key = other := by
  have hnames : (s.put other d bytes).templates.names = _ := Members.names_put other d s.templates
  rw [mem_keys, mem_keys, hnames]
  split
  next hmem =>
    constructor
    · exact .inl
    · rintro (h | rfl)
      · exact h
      · exact hmem
  next => simp

/-- Where no key stands twice, the keys ascend. -/
theorem ascending_keys (h : s.templates.names.Nodup) :
    s.keys.Pairwise fun a b => a.vals < b.vals :=
  Members.ascending_sorted h

theorem keys_of_ordered (h : s.templates.Pairwise fun a b => a.1.le b.1 = true) :
    s.keys = s.templates.names := by
  rw [keys, Members.sorted, List.mergeSort_of_pairwise h, Members.names]

theorem length_keys (s : Store) : s.keys.length = s.size := by
  rw [keys, List.length_map, (Members.perm_sorted s.templates).length_eq, size]

theorem size_eq (s : Store) : s.size = s.templates.names.length := (List.length_map ..).symm

theorem size_put_le (s : Store) (key : Text) (d : Document) (bytes : Bytes) :
    (s.put key d bytes).size ≤ s.size + 1 := by
  have hnames : (s.put key d bytes).templates.names = _ := Members.names_put key d s.templates
  rw [size_eq, size_eq, hnames]
  by_cases hkey : key ∈ s.templates.names
  · rw [if_pos hkey]
    exact Nat.le_succ _
  · rw [if_neg hkey, List.length_append]
    exact Nat.le_refl _

theorem size_put_pos (s : Store) (key : Text) (d : Document) (bytes : Bytes) :
    0 < (s.put key d bytes).size := by
  have hget := Members.get?_put key key d s.templates
  rw [if_pos rfl] at hget
  refine List.length_pos_iff.mpr fun hnil => ?_
  simp only [put] at hnil
  rw [hnil] at hget
  cases hget

/-- Files that are put in order are put into both maps in this order. -/
theorem foldl_put {α : Type} (key : α → Text) (document : α → Document) (content : α → Bytes)
    (as : List α) (s : Store) :
    as.foldl (fun s a => s.put (key a) (document a) (content a)) s =
      ⟨s.templates.putAll (as.map fun a => (key a, document a)),
        s.files.putAll (as.map fun a => (key a, content a))⟩ := by
  induction as generalizing s with
  | nil => rfl
  | cons a as ih =>
    rw [List.foldl_cons, ih]
    rfl

/-- A file that is put under a key, which is normalized before if asked for. -/
structure Put where
  key : Text
  normalized : Bool
  document : Document
  content : Bytes

namespace Put

def target (p : Put) : Text := if p.normalized then normalizeKey p.key else p.key

def filed (p : Put) : Filed := ⟨p.document, p.content⟩

end Put

def ofPuts (puts : List Put) : Store :=
  puts.foldl (fun s p => s.put p.target p.document p.content) empty

def lastPut? (puts : List Put) (key : Text) : Option Put :=
  (puts.filter fun p => p.target = key).getLast?

theorem lastPut?_eq_none {puts : List Put} :
    lastPut? puts key = none ↔ ∀ p ∈ puts, p.target ≠ key := by
  simp [lastPut?]

theorem lastPut?_map {α : Type} (f : Put → α) (puts : List Put) (key : Text) :
    ((puts.map fun p => (p.target, f p)).filter fun m => m.1 = key).getLast?.map (·.2) =
      (lastPut? puts key).map f := by
  rw [List.filter_map, List.getLast?_map, Option.map_map]
  rfl

/-- Two files under different keys in either order leave the same last file for each key. -/
theorem lastPut?_exchange {a b : Put} (h : a.target ≠ b.target) (front back : List Put)
    (key : Text) :
    lastPut? (front ++ b :: a :: back) key = lastPut? (front ++ a :: b :: back) key := by
  -- At most one of the two is under the key.
  have hpair : [b, a].filter (fun p => p.target = key) = [a, b].filter fun p => p.target = key := by
    by_cases ha : a.target = key
    · have hb : b.target ≠ key := fun hb => h (ha.trans hb.symm)
      simp [ha, hb]
    · simp [List.filter_cons, ha]
  have hrow (x y : Put) : front ++ x :: y :: back = front ++ ([x, y] ++ back) := rfl
  simp only [lastPut?, hrow, List.filter_append, hpair]

theorem ofPuts_eq (puts : List Put) :
    ofPuts puts = ⟨Members.putAll [] (puts.map fun p => (p.target, p.document)),
      Members.putAll [] (puts.map fun p => (p.target, p.content))⟩ :=
  foldl_put Put.target Put.document Put.content puts empty

theorem nodup_ofPuts (puts : List Put) : (ofPuts puts).templates.names.Nodup := by
  have hempty : (Members.names ([] : Members Document)).Nodup := List.nodup_nil
  rw [ofPuts_eq]
  exact Members.nodup_names_putAll hempty _

theorem templates_ofPuts (puts : List Put) (key : Text) :
    (ofPuts puts).templates.get? key = (lastPut? puts key).map Put.document := by
  rw [ofPuts_eq, Members.get?_putAll_getLast?, lastPut?_map]
  exact Option.or_none

theorem files_ofPuts (puts : List Put) (key : Text) :
    (ofPuts puts).files.get? key = (lastPut? puts key).map Put.content := by
  rw [ofPuts_eq, Members.get?_putAll_getLast?, lastPut?_map]
  exact Option.or_none

theorem get?_ofPuts (puts : List Put) (key : Text) :
    (ofPuts puts).get? key = (lastPut? puts key).map Put.filed := by
  rw [get?, templates_ofPuts, files_ofPuts]
  cases lastPut? puts key <;> rfl

theorem mem_keys_ofPuts {puts : List Put} :
    key ∈ (ofPuts puts).keys ↔ ∃ p ∈ puts, p.target = key := by
  rw [mem_keys, ofPuts_eq, Members.mem_names_putAll]
  simp [Members.names]

theorem keys_exchange {a b : Put} (h : a.target ≠ b.target) (front back : List Put) :
    (ofPuts (front ++ b :: a :: back)).keys = (ofPuts (front ++ a :: b :: back)).keys := by
  refine congrArg (List.map Prod.fst) (Members.sorted_congr (nodup_ofPuts _) (nodup_ofPuts _) ?_)
  intro key
  rw [templates_ofPuts, templates_ofPuts, lastPut?_exchange h]

/-- Files are put in order, under keys of any kind. A key leads to the document and the bytes of the
file that was put under it last, in both maps, and to nothing where no file was. The keys ascend, are
those that files were put under, and are as many as the size of the store. Two files side by side under
different keys can be exchanged: every key leads to what it led to. -/
theorem holds_last_puts (puts : List Put) :
    let s := ofPuts puts
    (∀ key, s.get? key = (lastPut? puts key).map Put.filed ∧
      s.templates.get? key = (lastPut? puts key).map Put.document ∧
      s.files.get? key = (lastPut? puts key).map Put.content) ∧
    (∀ key, s.get? key = none ↔ ∀ p ∈ puts, p.target ≠ key) ∧
    (s.keys.Pairwise fun a b => a.vals < b.vals) ∧
    (∀ key, key ∈ s.keys ↔ ∃ p ∈ puts, p.target = key) ∧
    s.keys.length = s.size ∧
    ∀ front a b back, puts = front ++ a :: b :: back → a.target ≠ b.target →
      let t := ofPuts (front ++ b :: a :: back)
      t.keys = s.keys ∧ ∀ key, t.get? key = s.get? key ∧
        t.templates.get? key = s.templates.get? key ∧ t.files.get? key = s.files.get? key := by
  intro s
  refine ⟨fun key => ?found, fun key => ?missing, ascending_keys (nodup_ofPuts puts),
    fun key => mem_keys_ofPuts, length_keys s, ?exchange⟩
  case found => exact ⟨get?_ofPuts puts key, templates_ofPuts puts key, files_ofPuts puts key⟩
  case missing => rw [get?_ofPuts, Option.map_eq_none_iff, lastPut?_eq_none]
  case exchange =>
    rintro front a b back rfl h t
    refine ⟨keys_exchange h front back, fun key => ⟨?_, ?_, ?_⟩⟩
    · rw [get?_ofPuts, get?_ofPuts, lastPut?_exchange h]
    · rw [templates_ofPuts, templates_ofPuts, lastPut?_exchange h]
    · rw [files_ofPuts, files_ofPuts, lastPut?_exchange h]

def backslashed : Put := ⟨text "a\\b", true, [(text "x", .integer 1)], [1]⟩
def slashed : Put := ⟨text "a/b", false, [(text "x", .integer 2)], [2]⟩
def apart : Put := ⟨text "a\\b", false, [], [3]⟩

theorem holds_last_puts_of_colliding :
    let s := ofPuts [backslashed, slashed, apart]
    let t := ofPuts [backslashed, apart, slashed]
    slashed.target ≠ apart.target ∧ backslashed.target = slashed.target ∧
      s.files.get? (text "a/b") = some [2] ∧ s.keys.length = 2 ∧
      t.keys = s.keys ∧ ∀ key, t.get? key = s.get? key ∧
        t.templates.get? key = s.templates.get? key ∧ t.files.get? key = s.files.get? key := by
  have hne : slashed.target ≠ apart.target := by decide
  obtain ⟨-, -, -, -, hlength, hexchange⟩ := holds_last_puts [backslashed, slashed, apart]
  exact ⟨hne, by decide, by rfl, hlength.trans (by rfl),
    hexchange [backslashed] slashed apart [] rfl hne⟩

end Terraload.Store
