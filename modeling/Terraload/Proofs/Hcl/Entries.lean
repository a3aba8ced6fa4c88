import Terraload.Proofs.Hcl.Opening
import Terraload.Proofs.Hcl.Operand
/-!
Reading the entries of a body one after another.
-/
namespace Terraload.Hcl

open Reader

variable {n : Nat} {c d d' : Cursor} {x : Char} {k r t u w : List Char} {g : Gap} {body : Body}

def opensLine (x : Char) : Bool := nameStart x || x == '}'

theorem solid_of_opensLine (hx : opensLine x = true) : solid x = true := solid_of_test hx rfl

theorem operator?_of_opensLine (hx : opensLine x = true) (t : List Char) :
    operator? (x :: t) = none := by
  have h1 : x ≠ '|' := ne_of_test hx rfl
  have h2 : x ≠ '&' := ne_of_test hx rfl
  have h3 : x ≠ '=' := ne_of_test hx rfl
  have h4 : x ≠ '!' := ne_of_test hx rfl
  have h5 : x ≠ '<' := ne_of_test hx rfl
  have h6 : x ≠ '>' := ne_of_test hx rfl
  have h7 : x ≠ '+' := ne_of_test hx rfl
  have h8 : x ≠ '-' := ne_of_test hx rfl
  have h9 : x ≠ '*' := ne_of_test hx rfl
  have h10 : x ≠ '/' := ne_of_test hx rfl
  have h11 : x ≠ '%' := ne_of_test hx rfl
  simp [operator?, h1, h2, h3, h4, h5, h6, h7, h8, h9, h10, h11]

theorem joins_of_opensLine (hx : opensLine x = true) (t : List Char) : joins (x :: t) = false := by
  have h1 : x ≠ '?' := ne_of_test hx rfl
  have h2 : x ≠ '-' := ne_of_test hx rfl
  simp [joins, h1, h2, operator?_of_opensLine hx]

def LineStart (r : List Char) : Prop := ∀ x, r.head? = some x → opensLine x = true

theorem LineStart.skip (h : LineStart r) : skipBlanks r = r := by
  cases r with
  | nil => rfl
  | cons x t => exact skipBlanks_of_solid (solid_of_opensLine (h x rfl)) t

theorem LineStart.gap? (h : LineStart r) : gap? r = none := by
  cases r with
  | nil => rfl
  | cons x t => exact gap?_of_solid (solid_of_opensLine (h x rfl)) t

theorem LineStart.joins (h : LineStart r) : joins r = false := by
  cases r with
  | nil => rfl
  | cons x t => exact joins_of_opensLine (h x rfl) t

def Indent (w : List Char) : Prop := ∀ x ∈ w, x = ' ' ∨ x = '\t'

theorem indent_nil : Indent [] := by simp [Indent]

theorem Indent.skip (hw : Indent w) (r : List Char) : skipBlanks (w ++ r) = skipBlanks r := by
  refine List.dropWhile_append_of_pos fun x hx => ?_
  obtain rfl | rfl := hw x hx <;> rfl

/-- A newline before a line, with the blanks in front of that. -/
theorem LineStart.gap?_newline (h : LineStart r) (hw : Indent w) :
    Hcl.gap? ('\n' :: (w ++ r)) = some ('\n' :: w, r) := by
  have hblank : ∀ x ∈ w, (x == ' ' || x == '\t') = true := by
    intro x hx
    obtain rfl | rfl := hw x hx <;> rfl
  have hword : Without (fun x => x == ' ' || x == '\t') r := by
    intro x hx
    have h1 : x ≠ ' ' := ne_of_test (h x hx) rfl
    have h2 : x ≠ '\t' := ne_of_test (h x hx) rfl
    simp [h1, h2]
  simp only [Hcl.gap?, takeWhile_append hblank hword, dropWhile_append hblank hword]

theorem LineStart.run_gap (h : LineStart r) (hw : Indent w)
    (hc : c.rest = '\n' :: (w ++ r)) : gap c = some ('\n' :: w, ⟨r, c.inner, false⟩) := by
  have hskip : skipBlanks ('\n' :: (w ++ r)) = '\n' :: (w ++ r) := rfl
  have hlast (n : Nat) : gapRun (n + 1) r = ([], r) := by simp [gapRun, h.skip, h.gap?]
  simp [gap, hc, gapRun, hskip, h.gap?_newline hw, h.skip, h.joins, hlast]

/-- A value ends where its line does. -/
theorem LineStart.closes (h : LineStart r) (hw : Indent w) : Closes ('\n' :: (w ++ r)) where
  word := by intro x hx; cases hx; exact ⟨by decide, by decide⟩
  step := by intro x hx; cases hx; exact ⟨by decide, by decide⟩
  operator := by
    have hskip : skipBlanks ('\n' :: (w ++ r)) = '\n' :: (w ++ r) := rfl
    have hnone : operator? ('\n' :: (w ++ r)) = none := rfl
    simp [boundOperator?, hskip, h.gap?_newline hw, h.skip, h.joins, hnone]
  question := by
    have hskip : skipBlanks ('\n' :: (w ++ r)) = '\n' :: (w ++ r) := rfl
    rw [hskip]
    unfold question?
    split
    next heq => cases heq
    next =>
      simp only [h.gap?_newline hw, h.skip]
      split
      next => exact absurd (h '?' rfl) (by decide)
      next => rfl

theorem entries_gap (hg : gap c = some (g, d)) (hne : g ≠ [])
    (hrest : entries n d = some (body, d')) :
    entries (n + 1) c = some (.gap g :: body, d') := by
  have hempty : (!g.isEmpty) = true := by simpa using hne
  rw [entries, run_bind hg, if_pos hempty, run_bind hrest]
  rfl

theorem entries_end (hgap : gap? (skipBlanks c.rest) = none)
    (hname : name? (skipBlanks c.rest) = none) : entries (n + 1) c = some ([], c) := by
  rw [entries, run_bind (run_gap_none hgap), if_neg (by decide), run_bind (run_word?_none hname)]
  rfl

theorem entries_attribute {e : Expr} (hs : skipBlanks c.rest = k ++ ' ' :: '=' :: ' ' :: r)
    (hk : IsName k) (he : expression n ⟨' ' :: r, [], false⟩ = some (⟨e, g⟩, d))
    (hrest : entries n d = some (body, d')) :
    entries (n + 1) c = some (.attribute k e d.inner g :: body, d') := by
  have hname := hk.name? (r := ' ' :: '=' :: ' ' :: r) (by intro y hy; cases hy; decide)
  have hgap : gap? (skipBlanks c.rest) = none := by
    obtain ⟨x, xs, rfl, hx, -⟩ := hk
    rw [hs]
    exact gap?_of_solid (solid_of_test hx rfl) _
  have hequals : equalsSign? (skipBlanks (' ' :: '=' :: ' ' :: r)) = some (' ' :: r) := rfl
  rw [entries, run_bind (run_gap_none hgap), if_neg (by decide),
    run_bind (run_word?_some (r := ' ' :: '=' :: ' ' :: r) (by rw [hs]; exact hname))]
  dsimp only
  rw [run_bind (run_peek _)]
  simp only [hequals]
  rw [run_bind (a := ()) (d := ⟨' ' :: r, [], false⟩) rfl, run_bind he,
    run_bind (a := d) (d := d) rfl, run_bind hrest]
  rfl

theorem entries_block {ls : List Label} {inside : Body} (hs : skipBlanks c.rest = k ++ r)
    (hk : IsName k) (hr : Without nameChar r) (hequals : equalsSign? (skipBlanks r) = none)
    (hlabels : labels n ⟨r, c.inner, false⟩ = some (ls, ⟨t, c.inner, false⟩))
    (hbrace : dropWord? ['{'] (skipBlanks t) = some u)
    (hinside : entries n ⟨u, c.inner, false⟩ = some (inside, d)) (hclose : d.rest = '}' :: w)
    (hrest : entries n ⟨w, d.inner, false⟩ = some (body, d')) :
    entries (n + 1) c = some (.block k ls inside :: body, d') := by
  have hname := hk.name? hr
  have hgap : gap? (skipBlanks c.rest) = none := by
    obtain ⟨x, xs, rfl, hx, -⟩ := hk
    rw [hs]
    exact gap?_of_solid (solid_of_test hx rfl) _
  have hclosed : dropWord? ['}'] (skipBlanks d.rest) = some w := by
    rw [hclose]
    rfl
  rw [entries, run_bind (run_gap_none hgap), if_neg (by decide),
    run_bind (run_word?_some (by rw [hs]; exact hname))]
  dsimp only
  rw [run_bind (run_peek _)]
  simp only [hequals]
  rw [run_bind hlabels, run_bind (run_expect hbrace), run_bind hinside,
    run_bind (run_expect hclosed), run_bind hrest]
  rfl

theorem labels_word {ls : List Label} (hs : skipBlanks c.rest = k ++ r) (hk : IsName k)
    (hr : Without nameChar r) (hrest : labels n ⟨r, c.inner, false⟩ = some (ls, d)) :
    labels (n + 1) c = some (.name k :: ls, d) := by
  have hname := hk.name? hr
  obtain ⟨x, xs, rfl, hx, -⟩ := hk
  have hgap : gap? (skipBlanks c.rest) = none := by
    rw [hs]
    exact gap?_of_solid (solid_of_test hx rfl) _
  have hquote : x ≠ '"' := ne_of_test hx rfl
  rw [labels, run_bind (run_gap_none hgap), if_neg (by decide), run_bind (run_peek c)]
  simp only [hs, List.cons_append, List.cons.injEq, hquote, false_and, imp_self, implies_true]
  rw [run_bind (run_word?_some (by rw [hs]; exact hname))]
  dsimp only
  rw [run_bind hrest]
  rfl

theorem labels_string {cs s : List Char} {ls : List Label} (hs : skipBlanks c.rest = '"' :: s)
    (h : stringChars s = (cs, '"' :: r))
    (hrest : labels (n + 2) ⟨r, c.inner, false⟩ = some (ls, d)) :
    labels (n + 3) c = some (.template (literal cs) :: ls, d) := by
  have hgap : gap? (skipBlanks c.rest) = none := by rw [hs]; rfl
  have hpieces := pieces_literal (n := n) (c := ⟨s, c.inner, false⟩) h
  rw [labels, run_bind (run_gap_none hgap), if_neg (by decide), run_bind (run_peek c)]
  simp only [hs]
  rw [run_bind (run_setRest s c), run_bind hpieces, run_bind (run_guard (paired_literal cs) _),
    run_bind hrest]
  rfl

theorem labels_brace (hs : skipBlanks c.rest = '{' :: r) : labels (n + 1) c = some ([], c) := by
  have hgap : gap? (skipBlanks c.rest) = none := by rw [hs]; rfl
  have hname : name? (skipBlanks c.rest) = none := by rw [hs]; rfl
  rw [labels, run_bind (run_gap_none hgap), if_neg (by decide), run_bind (run_peek c), hs]
  show (word? name? >>= _) c = _
  rw [run_bind (run_word?_none hname)]
  rfl

end Terraload.Hcl
