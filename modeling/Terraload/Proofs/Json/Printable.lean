import Terraload.Proofs.Json.Writing
import Terraload.Proofs.Number.Digits
/-!
The characters of a written value: what is printable in ASCII, and line ends where the layout puts
its parts on lines of their own. Whatever stands in the texts of the value, no other control
character comes into what is written.
-/
namespace Terraload.Json

variable {lone : Bool} {l : Layout} {depth n : Nat} {c : Char} {v : Value}

def Printable (c : Char) : Prop := 32 ≤ c.toNat ∧ c.toNat < 127

instance : DecidablePred Printable := fun _ => inferInstanceAs (Decidable (_ ∧ _))

/-- Given characters, one by one. -/
theorem printable_of_all {cs : List Char} (h : cs.all (fun c => decide (Printable c)) = true) :
    ∀ c ∈ cs, Printable c := fun c hc => of_decide_eq_true (List.all_eq_true.mp h c hc)

def Layout.Takes (l : Layout) (c : Char) : Prop := Printable c ∨ l ≠ .line ∧ c = '\n'

theorem Printable.takes (h : Printable c) (l : Layout) : l.Takes c := .inl h

theorem Layout.line_takes : Layout.line.Takes c ↔ Printable c := by
  simp [Layout.Takes]

theorem printable_of_decimalDigit (h : decimalDigit c = true) : Printable c := by
  obtain ⟨hlow, hhigh⟩ := (decimalDigit_iff c).mp h
  exact ⟨by omega, by omega⟩

theorem printable_of_hexDigit (h : hexDigit c = true) : Printable c := by
  have hnat : c.toNat = c.val.toNat := rfl
  unfold hexDigit hexValue? at h
  simp only [Char.le_def, UInt32.le_iff_toNat_le, Bool.and_eq_true, decide_eq_true_eq] at h
  split at h
  next hc =>
    obtain ⟨hlow, hhigh⟩ : 48 ≤ c.val.toNat ∧ c.val.toNat ≤ 57 := hc
    exact ⟨by omega, by omega⟩
  split at h
  next hc =>
    obtain ⟨hlow, hhigh⟩ : 97 ≤ c.val.toNat ∧ c.val.toNat ≤ 102 := hc
    exact ⟨by omega, by omega⟩
  split at h
  next hc =>
    obtain ⟨hlow, hhigh⟩ : 65 ≤ c.val.toNat ∧ c.val.toNat ≤ 70 := hc
    exact ⟨by omega, by omega⟩
  · cases h

theorem printable_intDigits (i : Int) : ∀ c ∈ intDigits i, Printable c := by
  cases i with
  | ofNat n => exact fun c hc => printable_of_decimalDigit (natDigits_digit hc)
  | negSucc n =>
    exact List.forall_mem_cons.mpr
      ⟨by decide, fun c hc => printable_of_decimalDigit (natDigits_digit hc)⟩

theorem printable_unitEscape (h : n < 0x10000) : ∀ c ∈ unitEscape n, Printable c := by
  obtain ⟨a, b, x, y, hdigits, hvalue⟩ := hexDigits_four h
  obtain ⟨-, hall⟩ := hexNat?_four hvalue
  rw [unitEscape, hdigits]
  exact List.forall_mem_cons.mpr ⟨by decide, List.forall_mem_cons.mpr
    ⟨by decide, fun c hc => printable_of_hexDigit (hall c hc)⟩⟩

/-- What stands for a code point between the quotes. -/
theorem printable_escape (x : CodePoint) : ∀ c ∈ escape x, Printable c := by
  unfold escape
  split
  case h_1 | h_2 | h_3 | h_4 | h_5 | h_6 | h_7 => exact printable_of_all rfl
  case h_8 d _ _ _ _ _ _ _ =>
    have hvalid : d.toNat < 0xD800 ∨ 0xDFFF < d.toNat ∧ d.toNat < 0x110000 := d.valid
    have hval : CodePoint.val (.char d) = d.toNat := rfl
    dsimp only
    split
    next h => exact List.forall_mem_singleton.mpr h
    split
    next h => exact printable_unitEscape h
    next h =>
      exact List.forall_mem_append.mpr
        ⟨printable_unitEscape (by omega), printable_unitEscape (by omega)⟩
  case h_9 s =>
    have hs := s.offset.isLt
    have hval : CodePoint.val (.surrogate s) = 0xD800 + s.offset.val := rfl
    exact printable_unitEscape (by omega)

theorem printable_quote (t : Text) : ∀ c ∈ quote t, Printable c := by
  refine List.forall_mem_cons.mpr ⟨by decide, List.forall_mem_append.mpr ⟨fun c hc => ?_, ?_⟩⟩
  · obtain ⟨x, -, hx⟩ := List.mem_flatMap.mp hc
    exact printable_escape x c hx
  · exact List.forall_mem_singleton.mpr (by decide)

theorem takes_spaces (l : Layout) (n : Nat) : ∀ c ∈ List.replicate n ' ', l.Takes c := by
  intro c hc
  rw [(List.mem_replicate.mp hc).2]
  exact Printable.takes (by decide) l

theorem takes_opening (l : Layout) (depth : Nat) : ∀ c ∈ l.opening depth, l.Takes c := by
  cases l with
  | line => exact List.forall_mem_nil _
  | indented w => exact List.forall_mem_cons.mpr ⟨.inr ⟨by simp, rfl⟩, takes_spaces _ _⟩

theorem takes_separator (l : Layout) (depth : Nat) : ∀ c ∈ l.separator depth, l.Takes c := by
  have hcomma : l.Takes ',' := Printable.takes (by decide) l
  cases l with
  | line => exact List.forall_mem_cons.mpr ⟨hcomma, takes_spaces _ 1⟩
  | indented w => exact List.forall_mem_cons.mpr ⟨hcomma, takes_opening (.indented w) depth⟩

theorem mem_intersperse {α : Type} {sep x : α} {xs : List α} (h : x ∈ xs.intersperse sep) :
    x = sep ∨ x ∈ xs := by
  induction xs with
  | nil => cases h
  | cons y ys ih =>
    cases ys with
    | nil => exact .inr h
    | cons z zs =>
      rw [List.intersperse_cons_cons, List.mem_cons, List.mem_cons] at h
      obtain rfl | rfl | h := h
      · exact .inr List.mem_cons_self
      · exact .inl rfl
      · exact (ih h).imp_right (List.mem_cons_of_mem _)

theorem takes_enclose {left right : Char} {ws : List (List Char)} (hleft : Printable left)
    (hright : Printable right) (h : ∀ w ∈ ws, ∀ c ∈ w, l.Takes c) :
    ∀ c ∈ l.enclose depth left right ws, l.Takes c := by
  by_cases hws : ws = []
  · rw [hws]
    exact List.forall_mem_cons.mpr ⟨hleft.takes l, List.forall_mem_singleton.mpr (hright.takes l)⟩
  rw [enclose_of_ne hws]
  intro c hc
  simp only [List.mem_cons, List.mem_append, List.not_mem_nil, or_false] at hc
  obtain rfl | (hc | hc | hc) | rfl := hc
  · exact hleft.takes l
  · exact takes_opening l _ c hc
  · obtain ⟨w, hw, hcw⟩ := List.mem_flatten.mp hc
    obtain rfl | hw := mem_intersperse hw
    · exact takes_separator l _ c hcw
    · exact h w hw c hcw
  · exact takes_opening l _ c hc
  · exact hright.takes l

theorem Writable.takes (h : Writable lone depth v) (l : Layout) (k : Nat) :
    ∀ c ∈ write l k v, l.Takes c := by
  induction h generalizing k with
  | null =>
    have hword : ∀ c ∈ ['n', 'u', 'l', 'l'], Printable c := printable_of_all rfl
    exact fun c hc => (hword c hc).takes l
  | boolean b =>
    have hword : ∀ c ∈ write l k (.boolean b), Printable c := by
      cases b <;> simp only [write] <;> exact printable_of_all rfl
    exact fun c hc => (hword c hc).takes l
  | @integer depth n h => exact fun c hc => (printable_intDigits n c hc).takes l
  | @text depth t h => exact fun c hc => (printable_quote t c hc).takes l
  | @list depth vs h ih =>
    rw [write_list]
    refine takes_enclose (by decide) (by decide) fun w hw => ?_
    obtain ⟨v, hv, rfl⟩ := List.mem_map.mp hw
    exact ih v hv (k + 1)
  | @object depth ms hnodup hnames h ih =>
    rw [write_object]
    refine takes_enclose (by decide) (by decide) fun w hw => ?_
    obtain ⟨m, hm, rfl⟩ := List.mem_map.mp hw
    have hvalue := ih m ((Members.perm_sorted ms).mem_iff.mp hm) (k + 1)
    exact List.forall_mem_append.mpr ⟨fun c hc => (printable_quote m.1 c hc).takes l,
      List.forall_mem_cons.mpr ⟨Printable.takes (by decide) l,
        List.forall_mem_cons.mpr ⟨Printable.takes (by decide) l, hvalue⟩⟩⟩

/-- On one line there are printable characters only. -/
theorem Writable.printable (h : Writable lone depth v) : ∀ c ∈ render .line v, Printable c :=
  fun c hc => Layout.line_takes.mp (h.takes .line 0 c hc)

end Terraload.Json
