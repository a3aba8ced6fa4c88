import Terraload.Proofs.Hcl.Entries
import Terraload.Proofs.Hcl.Gathering
import Terraload.Proofs.Hcl.PlainReading
/-!
Declarations in lines: an attribute takes one line, and a block the lines of its body between a line
that opens it and one that closes it. Such lines are read as entries that give the shares of the
declarations.
-/
namespace Terraload.Hcl

open Reader

variable {n : Nat} {c d : Cursor} {k cs s r t e u w : List Char} {v : Value} {ss ts : List Share}
  {body : Body} {ds : List Decl} {tags : List Tag}

theorem stripChars_blank (h : ∀ x ∈ cs, blankChar x = true) : stripChars cs = [] := by
  have hdrop : cs.dropWhile blankChar = [] := by
    rw [← List.append_nil cs, dropWhile_append h (by simp [Without])]
  rw [stripChars, trimWhile, hdrop]
  rfl

theorem mem_of_mem_splitLines {l : List Char} {x : Char} (hl : l ∈ splitLines s) (hx : x ∈ l) :
    x ∈ s := by
  fun_induction splitLines s generalizing l with
  | case1 =>
    rw [List.mem_singleton.mp hl] at hx
    exact hx
  | case2 r ih =>
    obtain rfl | hl := List.mem_cons.mp hl
    · cases hx
    · exact List.mem_cons_of_mem _ (ih hl hx)
  | case3 c r _ hnil ih =>
    rw [List.mem_singleton.mp hl] at hx
    exact List.mem_cons.mpr (.inl (List.mem_singleton.mp hx))
  | case4 c r _ m ls hcons ih =>
    rw [hcons] at ih
    obtain rfl | hl := List.mem_cons.mp hl
    · obtain rfl | hx := List.mem_cons.mp hx
      · exact List.mem_cons_self
      · exact List.mem_cons_of_mem _ (ih List.mem_cons_self hx)
    · exact List.mem_cons_of_mem _ (ih (List.mem_cons_of_mem _ hl) hx)

/-- Where a gap is blank it has no comments. -/
theorem comments_blank {g : Gap} (h : ∀ x ∈ g, blankChar x = true) : Gap.comments g = [] := by
  have hlong : longComment? [] = none := rfl
  simp only [Gap.comments, stripChars_blank h, hlong]
  rw [List.filterMap_eq_nil_iff]
  intro l hl
  have hline : stripChars l = [] := stripChars_blank fun x hx => h x (mem_of_mem_splitLines hl hx)
  rw [hline]
  rfl

theorem comments_indent (hw : Indent w) : Gap.comments ('\n' :: w) = [] := by
  refine comments_blank fun x hx => ?_
  obtain rfl | hx := List.mem_cons.mp hx
  · rfl
  · obtain rfl | rfl := hw x hx <;> rfl

def Tag.written : Tag → List Char
  | .word k => k
  | .quoted cs => '"' :: (cs ++ ['"'])

def labelText (tags : List Tag) : List Char := tags.flatMap fun t => ' ' :: t.written

inductive Lines : List Decl → List Char → Prop
  | nil : Lines [] []
  | plain {k : Name} {v : Value} {w s r : List Char} {ds : List Decl} (hw : Indent w)
      (hk : Key k) (h : Plain v s) (hr : Lines ds r) :
      Lines (.attribute k v :: ds) (w ++ (k ++ ' ' :: '=' :: ' ' :: (s ++ '\n' :: r)))
  | block {k : Name} {tags : List Tag} {w s u r : List Char} {body ds : List Decl} (hw : Indent w)
      (hk : Key k) (htags : ∀ t ∈ tags, t.Plain) (hbody : Lines body s)
      (hc : Compatible (shares body)) (hu : Indent u) (hr : Lines ds r) :
      Lines (.block k tags body :: ds)
        (w ++ (k ++ (labelText tags ++ ' ' :: '{' :: '\n' :: (s ++ (u ++ '}' :: '\n' :: r)))))

inductive Tail : List Char → List Char → Prop
  | brace {w : List Char} (hw : Indent w) (r : List Char) : Tail (w ++ '}' :: r) ('}' :: r)
  | newline : Tail ['\n'] []
  | nothing : Tail [] []

theorem lineStart_brace (r : List Char) : LineStart ('}' :: r) := by
  intro x hx
  cases hx
  rfl

theorem Key.lineStart (hk : Key k) (r : List Char) : LineStart (k ++ r) := by
  obtain ⟨x, t, rfl, hx, -⟩ := hk.head
  intro y hy
  cases hy
  simp [opensLine, hx]

theorem Tail.closes (h : Tail t e) : Closes ('\n' :: t) := by
  cases h with
  | brace hw r => exact (lineStart_brace r).closes hw
  | newline => exact .of_test rfl
  | nothing => exact .of_test rfl

/-- Lines start with the blanks in front of the first one. -/
theorem Lines.start (h : Lines ds s) (hne : ds ≠ []) (t : List Char) :
    ∃ w l, s ++ t = w ++ l ∧ Indent w ∧ LineStart l := by
  cases h with
  | nil => exact absurd rfl hne
  | plain hw hk h hr => exact ⟨_, _, by rw [List.append_assoc, List.append_assoc], hw, hk.lineStart _⟩
  | block hw hk htags hbody hc hu hr =>
    exact ⟨_, _, by rw [List.append_assoc, List.append_assoc], hw, hk.lineStart _⟩

theorem Lines.eq_nil (h : Lines [] s) : s = [] := by
  cases h
  rfl

theorem Lines.closes (h : Lines ds s) (ht : Tail t e) : Closes ('\n' :: (s ++ t)) := by
  by_cases hne : ds = []
  · subst hne
    rw [h.eq_nil]
    exact ht.closes
  · obtain ⟨w, l, hs, hw, hl⟩ := h.start hne t
    rw [hs]
    exact hl.closes hw

def Arrives (n : Nat) (c : Cursor) (left : List Char) (ss : List Share) : Prop :=
  ∃ body d, entries n c = some (body, d) ∧ d.rest = left ∧ Gives body ss

theorem Arrives.gap {g : Gap} (h : Arrives n d e ss) (hg : Reader.gap c = some (g, d)) (hne : g ≠ [])
    (hcomments : Gap.comments g = []) : Arrives (n + 1) c e ss := by
  obtain ⟨body, d', hbody, hd', hgives⟩ := h
  exact ⟨.gap g :: body, d', entries_gap hg hne hbody, hd', hgives.gap hcomments⟩

theorem arrives_end (hgap : gap? (skipBlanks c.rest) = none) (hname : name? (skipBlanks c.rest) = none) :
    Arrives (n + 1) c c.rest [] :=
  ⟨[], c, entries_end hgap hname, rfl, gives_nil⟩

theorem Tail.arrives (h : Tail t e) (hc : c.rest = '\n' :: t) : Arrives (n + 2) c e [] := by
  obtain ⟨rest, inner, firm⟩ := c
  cases hc
  cases h with
  | brace hw r =>
    exact (arrives_end (c := ⟨'}' :: r, inner, false⟩) rfl rfl).gap
      ((lineStart_brace r).run_gap hw rfl) (by simp) (comments_indent hw)
  | newline =>
    exact (arrives_end (c := ⟨[], inner, true⟩) rfl rfl).gap (g := ['\n', '\n']) rfl (by simp) rfl
  | nothing =>
    exact (arrives_end (c := ⟨[], inner, false⟩) rfl rfl).gap (g := ['\n']) rfl (by simp) rfl

theorem arrives_attribute (hk : Key k) (h : Denotes s v) (hr : Closes r)
    (hs : skipBlanks c.rest = k ++ ' ' :: '=' :: ' ' :: (s ++ r)) (hn : 6 * s.length ≤ n)
    (hrest : Arrives (n + 3) ⟨r, [], false⟩ e ts) :
    Arrives (n + 4) c e (⟨k, false, v⟩ :: ts) := by
  obtain ⟨x, u, hx, hsolid⟩ := h.head
  have hskip : skipBlanks (' ' :: (s ++ r)) = s ++ r := by
    rw [skipBlanks_blank, hx]
    exact skipBlanks_of_solid hsolid _
  obtain ⟨e, he, hv⟩ := h.read (c := ⟨' ' :: (s ++ r), [], false⟩) hr hskip hn
  obtain ⟨body, d, hbody, hd, hgives⟩ := hrest
  exact ⟨_, d, entries_attribute hs hk.isName he hbody, hd, hgives.attribute hv⟩

theorem labelText_without (tags : List Tag) (r : List Char) :
    Without nameChar (labelText tags ++ ' ' :: r) := by
  cases tags <;> (intro x hx; cases hx; rfl)

theorem labels_tags (htags : ∀ t ∈ tags, t.Plain) {inner : List Gap} (hn : tags.length + 3 ≤ n) :
    labels n ⟨labelText tags ++ ' ' :: '{' :: r, inner, false⟩ =
      some (tags.map Tag.label, ⟨' ' :: '{' :: r, inner, false⟩) := by
  induction tags generalizing n with
  | nil =>
    obtain ⟨n, rfl⟩ : ∃ m, n = m + 1 := ⟨n - 1, by omega⟩
    exact labels_brace rfl
  | cons t tags ih =>
    obtain ⟨n, rfl⟩ : ∃ m, n = m + 3 := ⟨n - 3, by omega⟩
    rw [List.length_cons] at hn
    have ih := ih (fun t ht => htags t (by simp [ht])) (n := n + 2) (by omega)
    have ht := htags t (by simp)
    have hlabels : labelText (t :: tags) ++ ' ' :: '{' :: r =
        ' ' :: (t.written ++ (labelText tags ++ ' ' :: '{' :: r)) := by
      simp [labelText]
    rw [hlabels, List.map_cons]
    cases t with
    | word k =>
      refine labels_word ?_ ht.isName (labelText_without tags _) ih
      exact (skipBlanks_blank _).trans ((Key.lineStart ht _).skip)
    | quoted cs =>
      refine labels_string (s := cs ++ '"' :: (labelText tags ++ ' ' :: '{' :: r)) ?_
        (stringChars_plain ht _) ih
      simp only [Tag.written, List.cons_append, List.append_assoc, List.nil_append]
      rfl

theorem length_labelText (tags : List Tag) : tags.length ≤ (labelText tags).length := by
  induction tags with
  | nil => exact Nat.le_refl _
  | cons t tags ih =>
    have hcons : labelText (t :: tags) = ' ' :: (t.written ++ labelText tags) := rfl
    simp only [hcons, List.length_cons, List.length_append]
    omega

/-- No equals sign follows the kind of a block. -/
theorem equalsSign?_labelText (htags : ∀ t ∈ tags, t.Plain) (r : List Char) :
    equalsSign? (skipBlanks (labelText tags ++ ' ' :: '{' :: r)) = none := by
  cases tags with
  | nil => rfl
  | cons t tags =>
    have ht := htags t (by simp)
    cases t with
    | word k =>
      obtain ⟨x, u, rfl, hx, hopens⟩ := Key.head ht
      have hskip : skipBlanks (labelText (.word (x :: u) :: tags) ++ ' ' :: '{' :: r) =
          x :: (u ++ labelText tags ++ ' ' :: '{' :: r) :=
        (skipBlanks_blank _).trans (skipBlanks_of_solid (solid_of_opensPlain hopens) _)
      have hne : x ≠ '=' := ne_of_test hx rfl
      simp [hskip, equalsSign?, hne]
    | quoted cs => rfl

theorem arrives_block (hk : Key k) (htags : ∀ t ∈ tags, t.Plain)
    (hs : skipBlanks c.rest = k ++ (labelText tags ++ ' ' :: '{' :: r)) (hc : Compatible ss)
    (hn : tags.length + 3 ≤ n) (hinside : ∀ inner, Arrives n ⟨r, inner, false⟩ ('}' :: u) ss)
    (hrest : ∀ inner, Arrives n ⟨u, inner, false⟩ e ts) :
    Arrives (n + 1) c e (⟨k, true, wrap tags (.object (gather ss))⟩ :: ts) := by
  obtain ⟨inside, d, hread, hd, hgives⟩ := hinside c.inner
  obtain ⟨body, d', hbody, hd', hgivesRest⟩ := hrest d.inner
  exact ⟨_, d', entries_block hs hk.isName (labelText_without tags _) (equalsSign?_labelText htags _)
    (labels_tags htags hn) rfl hread hd hbody, hd', hgivesRest.block htags hgives hc⟩

/-- From the end of a line on, when the next ones are read from where the first of them starts. -/
theorem Lines.arrives_newline (h : Lines ds s) (ht : Tail t e) (hc : c.rest = '\n' :: (s ++ t))
    (hlines : ds ≠ [] → ∀ c : Cursor, skipBlanks c.rest = skipBlanks (s ++ t) →
      Arrives (n + 1) c e (shares ds)) :
    Arrives (n + 2) c e (shares ds) := by
  by_cases hne : ds = []
  · subst hne
    rw [h.eq_nil] at hc
    exact ht.arrives hc
  · obtain ⟨w, l, hs, hw, hl⟩ := h.start hne t
    rw [hs] at hc hlines
    refine (hlines hne ⟨l, c.inner, false⟩ ?_).gap (hl.run_gap hw hc) (by simp) (comments_indent hw)
    rw [hw.skip]

/-- Lines are read from where the first of them starts. -/
theorem Lines.arrives (h : Lines ds s) (ht : Tail t e) (hne : ds ≠ [])
    (hc : skipBlanks c.rest = skipBlanks (s ++ t)) (hn : 6 * s.length + 1 ≤ n) :
    Arrives n c e (shares ds) := by
  -- Six steps of the measure for each character are more than its readers take.
  induction h generalizing n c t e with
  | nil => exact absurd rfl hne
  | @plain k v w s r ds hw hk h hr ih =>
    simp only [List.append_assoc, List.cons_append, List.length_append, List.length_cons] at hc hn
    obtain ⟨n, rfl⟩ : ∃ m, n = m + 4 := ⟨n - 4, by omega⟩
    refine arrives_attribute hk h.denotes (hr.closes ht) ?_ (by omega)
      (hr.arrives_newline ht rfl fun hne c hc => ih ht hne hc (by omega))
    rw [hc, hw.skip]
    exact (hk.lineStart _).skip
  | @block k tags w s u r body ds hw hk htags hbody hcompatible hu hr ihbody ih =>
    simp only [List.append_assoc, List.cons_append, List.length_append, List.length_cons] at hc hn
    have htagLength := length_labelText tags
    obtain ⟨n, rfl⟩ : ∃ m, n = m + 3 := ⟨n - 3, by omega⟩
    refine arrives_block hk htags ?_ hcompatible (by omega)
      (fun inner => hbody.arrives_newline (.brace hu _) rfl fun hne c hc =>
        ihbody (.brace hu _) hne hc (by omega))
      (fun inner => hr.arrives_newline ht rfl fun hne c hc => ih ht hne hc (by omega))
    rw [hc, hw.skip]
    exact (hk.lineStart _).skip

/-- A text whose entries give shares is read as the object that these make up. -/
theorem Arrives.document
    (h : Arrives (12 * ((s ++ ['\n']).length + 2)) ⟨s ++ ['\n'], [], false⟩ [] ss)
    (hc : Compatible ss) :
    ∃ body, Body.read? s = some body ∧ body.document = .ok (gather ss) := by
  obtain ⟨body, d, hbody, hd, hgives⟩ := h
  obtain ⟨d', hd', hholds⟩ := hgives [] _ Draft.holds_nil hc
  refine ⟨body, ?_, ?_⟩
  · simp only [Body.read?, hbody, hd]
    rfl
  · unfold Body.document
    rw [hd', ← List.nil_append ss, ← hholds.finish]
    rfl

/-- Lines are read as the object that their declarations make up. -/
theorem Lines.read (h : Lines ds s) (hc : Compatible (shares ds)) :
    ∃ body, Body.read? s = some body ∧ body.document = .ok (document ds) := by
  have hlength : (s ++ ['\n']).length = s.length + 1 := by simp
  refine Arrives.document ?_ hc
  by_cases hne : ds = []
  · subst hne
    rw [h.eq_nil]
    exact Tail.nothing.arrives rfl
  · exact h.arrives .newline hne rfl (by omega)

/-- A line with a single value is read as the document of this member. -/
theorem Denotes.read_line (h : Denotes s v) (hk : Key k) :
    ∃ body, Body.read? (k ++ ' ' :: '=' :: ' ' :: (s ++ ['\n'])) = some body ∧
      body.document = .ok [(Text.ofChars k, v)] := by
  have hlength : (k ++ ' ' :: '=' :: ' ' :: (s ++ ['\n']) ++ ['\n']).length =
      k.length + s.length + 5 := by
    simp
    omega
  obtain ⟨n, hn⟩ : ∃ n, 12 * ((k ++ ' ' :: '=' :: ' ' :: (s ++ ['\n']) ++ ['\n']).length + 2) =
      n + 4 := ⟨12 * (k.length + s.length + 7) - 4, by omega⟩
  have hgather : gather [⟨k, false, v⟩] = [(Text.ofChars k, v)] :=
    @gather_attributes [(k, v)] (by simp)
  rw [← hgather]
  refine Arrives.document ?_ (List.pairwise_singleton _ _)
  rw [hn]
  refine arrives_attribute hk h (r := ['\n', '\n']) (.of_test rfl) ?_ (by omega)
    (Tail.newline.arrives rfl)
  simpa using (hk.lineStart _).skip

end Terraload.Hcl
