import Terraload.Json.Writer
import Terraload.Proofs.Json.Number
import Terraload.Proofs.Members
import Terraload.Proofs.Number.Hexadecimal
import Terraload.Proofs.Text
/-!
What is written of a value is a text of that value, in any layout, with the members of each object
in the order of their names.
-/
namespace Terraload.Json

variable {lone : Bool} {l : Layout} {depth n : Nat} {c : CodePoint} {s t : Text} {v : Value}
  {vs : List Value} {ms : Members Value}

theorem writesUnit_hexDigits (h : n < 0x10000) : WritesUnit n (Text.ofChars (hexDigits 4 n)) := by
  obtain ⟨a, b, c, d, hdigits, hvalue⟩ := hexDigits_four h
  rw [hdigits]
  exact .digits hvalue

theorem unitEscape_append (n : Nat) (s : Text) : Text.ofChars (unitEscape n) ++ s =
    .char '\\' :: .char 'u' :: (Text.ofChars (hexDigits 4 n) ++ s) := by
  simp [unitEscape]

/-- A unit that is no first half of a pair may stand alone. -/
theorem spells_unit (h : c.val < 0x10000) (hc : ¬ High c.val)
    (hlone : lone = true ∨ ¬ (0xD800 ≤ c.val ∧ c.val < 0xE000)) (hs : Spells lone t s) :
    Spells lone (c :: t) (Text.ofChars (unitEscape c.val) ++ s) := by
  rw [unitEscape_append]
  have hunit : Spells lone (.ofNat c.val :: t) _ :=
    .unit (writesUnit_hexDigits h) (fun h => absurd h hc) hlone hs
  rwa [CodePoint.ofNat_val] at hunit

/-- A character beyond sixteen bits is written as a pair. -/
theorem spells_pair (h : 0x10000 ≤ c.val) (hc : c.val < 0x110000) (hs : Spells lone t s) :
    Spells lone (c :: t) (Text.ofChars (unitEscape (0xD800 + (c.val - 0x10000) / 0x400) ++
      unitEscape (0xDC00 + (c.val - 0x10000) % 0x400)) ++ s) := by
  have hjoined : joined (0xD800 + (c.val - 0x10000) / 0x400)
      (0xDC00 + (c.val - 0x10000) % 0x400) = c := by
    rw [joined]
    have hsum : 0x10000 + (0xD800 + (c.val - 0x10000) / 0x400 - 0xD800) * 0x400 +
        (0xDC00 + (c.val - 0x10000) % 0x400 - 0xDC00) = c.val := by omega
    rw [hsum, CodePoint.ofNat_val]
  rw [ofChars_append, List.append_assoc, unitEscape_append, unitEscape_append]
  have hpair : Spells lone (joined (0xD800 + (c.val - 0x10000) / 0x400)
      (0xDC00 + (c.val - 0x10000) % 0x400) :: t) _ :=
    .pair (writesUnit_hexDigits (by omega)) (writesUnit_hexDigits (by omega))
      ⟨by omega, by omega⟩ ⟨by omega, by omega⟩ hs
  rwa [hjoined] at hpair

/-- An escaped code point is read back, unless it is a first half, which might find its second, or
a second half where none may stand alone. -/
theorem spells_escape (hc : ∀ x, c = .surrogate x → lone = true ∧ c.firstHalf = false)
    (hs : Spells lone t s) : Spells lone (c :: t) (Text.ofChars (escape c) ++ s) := by
  unfold escape
  split
  case h_1 | h_2 | h_3 | h_4 | h_5 | h_6 | h_7 => exact .short rfl hs
  case h_8 d hquote hslash _ _ _ _ _ =>
    have hvalid : d.toNat < 0xD800 ∨ 0xDFFF < d.toNat ∧ d.toNat < 0x110000 := d.valid
    have hval : CodePoint.val (.char d) = d.toNat := rfl
    dsimp only
    split
    next h =>
      exact .plain (by simpa using hquote) (by simpa using hslash) (Nat.not_lt.mpr h.1) hs
    split
    next h =>
      refine spells_unit h (fun hhigh => ?_) (.inr (by omega)) hs
      obtain ⟨hlow, hhigh⟩ := hhigh
      omega
    next h => exact spells_pair (by omega) (by omega) hs
  case h_9 x =>
    have hx := x.offset.isLt
    have hval : CodePoint.val (.surrogate x) = 0xD800 + x.offset.val := rfl
    obtain ⟨hlone, hhalf⟩ := hc x rfl
    have hsecond : ¬ x.offset.val < 0x400 := by simpa [CodePoint.firstHalf] using hhalf
    refine spells_unit (by omega) (fun hhigh => ?_) (.inl hlone) hs
    obtain ⟨hlow, hhigh⟩ := hhigh
    omega

/-- Texts that are read back: second halves may stand in them if a reader takes halves alone, first
ones may not. -/
def Legible (lone : Bool) (t : Text) : Prop :=
  ∀ c ∈ t, ∀ x, c = .surrogate x → lone = true ∧ c.firstHalf = false

theorem legible_of_decoded (ht : t.Decoded) : Legible true t := fun c hc _ _ => ⟨rfl, ht c hc⟩

theorem legible_ofChars (cs : List Char) : Legible lone (Text.ofChars cs) := by
  rintro c hc x rfl
  exact absurd hc (Text.surrogate_notMem_ofChars x cs)

theorem spells_flatMap (ht : Legible lone t) : Spells lone t (Text.ofChars (t.flatMap escape)) := by
  induction t with
  | nil => exact .nil
  | cons c t ih =>
    rw [List.flatMap_cons, ofChars_append]
    exact spells_escape (ht c (by simp)) (ih fun e he => ht e (by simp [he]))

theorem quote_eq (t : Text) : Text.ofChars (quote t) =
    .char '"' :: (Text.ofChars (t.flatMap escape) ++ [.char '"']) := by
  simp [quote, ofChars_append]

theorem blank_spaces (n : Nat) : Blank (Text.ofChars (List.replicate n ' ')) := by
  intro c hc
  obtain ⟨x, hx, rfl⟩ := List.mem_map.mp hc
  rw [(List.mem_replicate.mp hx).2]
  rfl

theorem blank_line (n : Nat) : Blank (Text.ofChars ('\n' :: List.replicate n ' ')) :=
  List.forall_mem_cons.mpr ⟨rfl, blank_spaces n⟩

theorem blank_opening (l : Layout) (depth : Nat) : Blank (Text.ofChars (l.opening depth)) := by
  cases l with
  | line => exact blank_nil
  | indented w => exact blank_line _

/-- The separator of parts is a comma with blank space behind it. -/
theorem separator_eq (l : Layout) (depth : Nat) :
    ∃ x, Blank (Text.ofChars x) ∧ l.separator depth = ',' :: x := by
  cases l with
  | line => exact ⟨[' '], blank_spaces 1, rfl⟩
  | indented w => exact ⟨_, blank_line _, rfl⟩

theorem enclose_of_ne {ws : List (List Char)} (h : ws ≠ []) (left right : Char) :
    l.enclose depth left right ws = left :: (l.opening (depth + 1) ++
      ((ws.intersperse (l.separator (depth + 1))).flatten ++ l.opening depth) ++ [right]) := by
  cases ws with
  | nil => exact absurd rfl h
  | cons w ws => simp [Layout.enclose]

section Rows

variable {read : Value → Value} {write : Value → List Char} {x closing : List Char}

/-- Items that are written each by itself, with a separator between them. -/
theorem writes_items (hx : Blank (Text.ofChars x)) (hclosing : Blank (Text.ofChars closing))
    (hne : vs ≠ []) (h : ∀ v ∈ vs, Writes lone depth (read v) (Text.ofChars (write v))) :
    WritesItems lone depth (vs.map read)
      (Text.ofChars (((vs.map write).intersperse (',' :: x)).flatten ++ closing)) := by
  induction vs with
  | nil => exact absurd rfl hne
  | cons v vs ih =>
    have hv := h v (by simp)
    cases vs with
    | nil =>
      have hlast := WritesItems.last hv hclosing
      simpa [ofChars_append] using hlast
    | cons v' vs =>
      have hrest := ih (List.cons_ne_nil _ _) fun u hu => h u (List.mem_cons_of_mem _ hu)
      have hmore := WritesItems.more hv blank_nil hx hrest
      simpa [ofChars_append] using hmore

theorem writes_members (hx : Blank (Text.ofChars x)) (hclosing : Blank (Text.ofChars closing))
    (hne : ms ≠ []) (hnames : ∀ m ∈ ms, Legible lone m.1)
    (h : ∀ m ∈ ms, Writes lone depth (read m.2) (Text.ofChars (write m.2))) :
    WritesMembers lone depth (ms.map fun m => (m.1, read m.2))
      (Text.ofChars (((ms.map fun m => quote m.1 ++ ':' :: ' ' :: write m.2).intersperse
        (',' :: x)).flatten ++ closing)) := by
  induction ms with
  | nil => exact absurd rfl hne
  | cons m ms ih =>
    have hm := h m (by simp)
    have hname := spells_flatMap (hnames m (by simp))
    cases ms with
    | nil =>
      have hlast := WritesMembers.last hname blank_nil (blank_spaces 1) hm hclosing
      simpa [ofChars_append, quote_eq] using hlast
    | cons m' ms =>
      have hrest := ih (List.cons_ne_nil _ _) (fun u hu => hnames u (List.mem_cons_of_mem _ hu))
        fun u hu => h u (List.mem_cons_of_mem _ hu)
      have hmore := WritesMembers.more hname blank_nil (blank_spaces 1) hm blank_nil hx hrest
      simpa [ofChars_append, quote_eq] using hmore

end Rows

theorem write_list (l : Layout) (depth : Nat) (vs : List Value) : write l depth (.list vs) =
    l.enclose depth '[' ']' (vs.map (write l (depth + 1))) := by
  have hitems : writeItems l (depth + 1) vs = vs.map (write l (depth + 1)) := by
    induction vs with
    | nil => rfl
    | cons v vs ih => exact congrArg (_ :: ·) ih
  rw [write, hitems]

theorem write_object (l : Layout) (depth : Nat) (ms : Members Value) : write l depth (.object ms) =
    l.enclose depth '{' '}'
      (ms.sorted.map fun m => quote m.1 ++ ':' :: ' ' :: write l (depth + 1) m.2) := by
  have hmembers : writeMembers l (depth + 1) ms =
      ms.map fun m => (m.1, write l (depth + 1) m.2) := by
    induction ms with
    | nil => rfl
    | cons m ms ih => exact congrArg (_ :: ·) ih
  rw [write, hmembers, Members.sorted_map, List.map_map]
  rfl

end Terraload.Json

namespace Terraload.Value

mutual

def arranged : Value → Value
  | .list vs => .list (arrangedItems vs)
  | .object ms => .object (Members.sorted (arrangedMembers ms))
  | .null => .null
  | .boolean b => .boolean b
  | .integer n => .integer n
  | .real x => .real x
  | .text t => .text t

def arrangedItems : List Value → List Value
  | [] => []
  | v :: vs => arranged v :: arrangedItems vs

def arrangedMembers : List (Text × Value) → Members Value
  | [] => []
  | (k, v) :: ms => (k, arranged v) :: arrangedMembers ms

end

theorem arranged_list (vs : List Value) : arranged (.list vs) = .list (vs.map arranged) := by
  have hitems : arrangedItems vs = vs.map arranged := by
    induction vs with
    | nil => rfl
    | cons v vs ih => exact congrArg (_ :: ·) ih
  rw [arranged, hitems]

theorem arranged_object (ms : Members Value) :
    arranged (.object ms) = .object (Members.sorted (ms.map fun m => (m.1, m.2.arranged))) := by
  have hmembers : arrangedMembers ms = ms.map fun m => (m.1, m.2.arranged) := by
    induction ms with
    | nil => rfl
    | cons m ms ih => exact congrArg (_ :: ·) ih
  rw [arranged, hmembers]

end Terraload.Value

namespace Terraload.Json

variable {lone : Bool} {depth : Nat} {v : Value}

/-- The values that are read back from what is written of them, their lists and objects nested up to
a depth: no integer has more digits than are read, no object has a name twice, and there are no
fractions. -/
inductive Writable (lone : Bool) : Nat → Value → Prop
  | null {depth : Nat} : Writable lone depth .null
  | boolean {depth : Nat} (b : Bool) : Writable lone depth (.boolean b)
  | integer {depth : Nat} {n : Int} (h : (natDigits n.natAbs).length ≤ digitLimit) :
      Writable lone depth (.integer n)
  | text {depth : Nat} {t : Text} (h : Legible lone t) : Writable lone depth (.text t)
  | list {depth : Nat} {vs : List Value} (h : ∀ v ∈ vs, Writable lone depth v) :
      Writable lone (depth + 1) (.list vs)
  | object {depth : Nat} {ms : Members Value} (hnodup : ms.names.Nodup)
      (hnames : ∀ m ∈ ms, Legible lone m.1) (h : ∀ m ∈ ms, Writable lone depth m.2) :
      Writable lone (depth + 1) (.object ms)

/-- Names that are all given and different. -/
theorem nodup_legible_of_names {ms : Members Value} (names : List String)
    (hnames : ms.names = names.map Terraload.text) (hnodup : names.Nodup) :
    ms.names.Nodup ∧ ∀ m ∈ ms, Legible lone m.1 := by
  refine ⟨?_, fun m hm => ?_⟩
  · rw [hnames]
    exact List.Pairwise.map Terraload.text (fun a b hab heq => hab (text_inj.mp heq)) hnodup
  · have hname : m.1 ∈ names.map Terraload.text := hnames ▸ List.mem_map_of_mem hm
    obtain ⟨w, -, hw⟩ := List.mem_map.mp hname
    rw [← hw]
    exact legible_ofChars _

theorem Writable.of_names {ms : Members Value} (names : List String)
    (hnames : ms.names = names.map Terraload.text) (hnodup : names.Nodup)
    (h : ∀ m ∈ ms, Writable lone depth m.2) : Writable lone (depth + 1) (.object ms) := by
  obtain ⟨hdistinct, hlegible⟩ := nodup_legible_of_names names hnames hnodup
  exact .object hdistinct hlegible h

/-- What is written of a value is read as the value in the order of names. -/
theorem Writable.writes (h : Writable lone depth v) (l : Layout) (k : Nat) :
    Writes lone depth v.arranged (Text.ofChars (write l k v)) := by
  induction h generalizing k with
  | null => exact .word (w := "null") (by simp [words, Value.arranged])
  | boolean b =>
    cases b with
    | true => exact .word (w := "true") (by simp [words, Value.arranged])
    | false => exact .word (w := "false") (by simp [words, Value.arranged])
  | @integer depth n h =>
    have hnumber : Writes lone depth _ (Numeral.ofInt n).text := .number _ (Numeral.value?_ofInt h)
    rwa [Numeral.text_ofInt] at hnumber
  | text h =>
    rw [write, quote_eq]
    exact .text (spells_flatMap h)
  | @list depth vs h ih =>
    rw [Value.arranged_list, write_list]
    by_cases hne : vs = []
    · rw [hne]
      exact .noItems blank_nil
    obtain ⟨x, hx, hseparator⟩ := separator_eq l (k + 1)
    have hitems := writes_items hx (blank_opening l k) hne fun v hv => ih v hv (k + 1)
    rw [enclose_of_ne (by simpa using hne), hseparator]
    simpa [ofChars_append] using Writes.items (blank_opening l (k + 1)) hitems
  | @object depth ms hnodup hnames h ih =>
    rw [Value.arranged_object, write_object, Members.sorted_map]
    have hperm := Members.perm_sorted ms
    generalize Members.sorted ms = rows at hperm ⊢
    by_cases hne : rows = []
    · rw [hne]
      exact .noMembers blank_nil
    obtain ⟨x, hx, hseparator⟩ := separator_eq l (k + 1)
    have hmembers := writes_members hx (blank_opening l k) hne
      (fun m hm => hnames m (hperm.mem_iff.mp hm)) fun m hm => ih m (hperm.mem_iff.mp hm) (k + 1)
    have hobject := Writes.members (blank_opening l (k + 1)) hmembers
    have hrows : (Members.names (rows.map fun m => (m.1, m.2.arranged))).Nodup := by
      rw [Members.names, List.map_map]
      exact (hperm.map Prod.fst).nodup_iff.mpr hnodup
    rw [Members.putAll_of_nodup hrows, List.nil_append] at hobject
    rw [enclose_of_ne (by simpa using hne), hseparator]
    simpa [ofChars_append] using hobject

/-- There are texts of such a value with its members in the order they have. -/
theorem Writable.exists_writes (h : Writable lone depth v) :
    ∃ cs, Writes lone depth v (Text.ofChars cs) := by
  induction h with
  | null => exact ⟨_, .word (w := "null") (by simp [words])⟩
  | boolean b =>
    cases b with
    | true => exact ⟨_, .word (w := "true") (by simp [words])⟩
    | false => exact ⟨_, .word (w := "false") (by simp [words])⟩
  | integer h => exact ⟨_, .number _ (Numeral.value?_ofInt h)⟩
  | @text depth t h => exact ⟨quote t, by rw [quote_eq]; exact .text (spells_flatMap h)⟩
  | @list depth vs h ih =>
    by_cases hne : vs = []
    · rw [hne]
      exact ⟨['[', ']'], .noItems blank_nil⟩
    choose! write hwrite using ih
    have hitems : WritesItems lone depth (vs.map id)
        (Text.ofChars (((vs.map write).intersperse [',']).flatten ++ [])) :=
      writes_items blank_nil blank_nil hne hwrite
    rw [List.map_id] at hitems
    exact ⟨'[' :: (((vs.map write).intersperse [',']).flatten ++ [']']), by
      simpa [ofChars_append] using Writes.items blank_nil hitems⟩
  | @object depth ms hnodup hnames h ih =>
    by_cases hne : ms = []
    · rw [hne]
      exact ⟨['{', '}'], .noMembers blank_nil⟩
    choose! write hwrite using fun (v : Value)
      (hv : ∃ cs, Writes lone depth v (Text.ofChars cs)) => hv
    have hmap : ms.map (fun m => (m.1, id m.2)) = ms := List.map_id ms
    have hmembers : WritesMembers lone depth (ms.map fun m => (m.1, id m.2))
        (Text.ofChars (((ms.map fun m => quote m.1 ++ ':' :: ' ' :: write m.2).intersperse
          [',']).flatten ++ [])) :=
      writes_members blank_nil blank_nil hne hnames fun m hm => hwrite m.2 (ih m hm)
    rw [hmap] at hmembers
    have hobject := Writes.members blank_nil hmembers
    have hall : Members.putAll [] ms = [] ++ ms := Members.putAll_of_nodup (by simpa using hnodup)
    rw [hall, List.nil_append] at hobject
    exact ⟨'{' :: (((ms.map fun m => quote m.1 ++ ':' :: ' ' :: write m.2).intersperse
      [',']).flatten ++ ['}']), by simpa [ofChars_append] using hobject⟩

end Terraload.Json
