import Terraload.Proofs.FileSystem.Escaped
/-!
The files with an extension below a directory of a tree. The pattern for them finds what is reached
from the directory by names that are not hidden, the last of which has the extension.
-/
namespace Terraload

open Terraload.Path FileSystem Glob

variable {fs : FileSystem} {follow : Bool} {d n p extension : Text} {q : Place} {ns way : List Text}
  {node : Node}

namespace Path

def EndsIn (ending : Text) (ns : List Text) : Prop := ∃ way n, ns = way ++ [n] ∧ ending <:+ n

theorem EndsIn.ne_nil {ending : Text} (h : EndsIn ending ns) : ns ≠ [] := by
  obtain ⟨way, n, rfl, -⟩ := h
  exact List.append_ne_nil_of_right_ne_nil _ (List.cons_ne_nil _ _)

end Path

namespace Glob

def extensionPart (extension : Text) : Text := .char '*' :: .char '.' :: extension

theorem accepts_extensionPart (hplain : Wildcard.isMagic extension = false) (n : Text) :
    Wildcard.accepts (extensionPart extension) n = true ↔ .char '.' :: extension <:+ n := by
  refine Wildcard.accepts_star ?_ n
  rw [Wildcard.isMagic_eq, List.any_cons]
  exact hplain

theorem inDirectory_extensionPart (fs : FileSystem) (directories : Bool) (d extension : Text) :
    inDirectory fs true directories d (extensionPart extension) =
      matching fs directories d (extensionPart extension) := by
  have hmagic : Wildcard.isMagic (extensionPart extension) = true := rfl
  have hdeep : extensionPart extension ≠ deepMark := fun heq =>
    absurd (List.cons.inj (List.cons.inj heq).2).1 (by decide)
  rw [inDirectory, hmagic, if_neg (by decide), if_neg (by simp [hdeep])]

variable (htree : fs.Tree)
include htree

theorem mem_inDirectory_extension (h : Spans fs d q)
    (hplain : Wildcard.isMagic extension = false) :
    n ∈ inDirectory fs true false d (extensionPart extension) ↔
      (fs.node? (q ++ [n])).isSome = true ∧ hidden n = false ∧ .char '.' :: extension <:+ n := by
  have hhidden : hidden (extensionPart extension) = false := rfl
  rw [inDirectory_extensionPart, mem_matching_of_spans htree h, hhidden,
    accepts_extensionPart hplain]
  simp

/-- What is below a directory has a path from that of the directory on. -/
theorem spans_row (h : Spans fs d q) (hne : ns ≠ [])
    (hnode : fs.node? (q ++ ns) = some .directory) : Spans fs (join d (ofParts ns)) (q ++ ns) := by
  induction ns generalizing d q with
  | nil => exact absurd rfl hne
  | cons n ns ih =>
    have hs : ∀ m ∈ n :: ns, m ≠ [] ∧ slash ∉ m := fun m hm =>
      have hproper := htree.proper_of_below hnode m hm
      ⟨hproper.ne_nil, hproper.noSlash⟩
    have happend : q ++ n :: ns = q ++ [n] ++ ns := by simp
    by_cases hnil : ns = []
    · subst hnil
      exact htree.spans_below h hnode
    · rw [happend] at hnode ⊢
      rw [join_ofParts_cons h.ne_nil hnil hs]
      exact ih (htree.spans_below h (htree.node?_of_below hnil hnode)) hnil hnode

theorem Reaches.above (h : Reaches fs q (way ++ [n]) node) : Reaches fs q way .directory where
  visible := fun m hm => h.visible m (List.mem_append_left _ hm)
  node_eq := htree.node?_of_child (by rw [List.append_assoc]; exact h.node_eq)

omit htree in
theorem join_nil (h : Leads fs d q) (hlast : d.getLast? ≠ some slash) :
    join d (ofParts []) = d ++ [slash] :=
  join_of_last h.ne_nil hlast (by simp [Relative, ofParts, Text.join])

/-- A directory below another, the other itself with a slash behind it. -/
theorem spans_reached (h : Spans fs d q) (hlast : d.getLast? ≠ some slash)
    (hway : Reaches fs q way .directory) : Spans fs (join d (ofParts way)) (q ++ way) := by
  by_cases hne : way = []
  · rw [hne, join_nil h.toLeads hlast, List.append_nil]
    exact h.slash hlast
  · exact spans_row htree h hne hway.node_eq

/-- A name in a directory below another. -/
theorem join_reached (h : Leads fs d q) (hlast : d.getLast? ≠ some slash)
    (hway : Reaches fs q way .directory) (hn : slash ∉ n) :
    join (join d (ofParts way)) n = d ++ slash :: ofParts (way ++ [n]) := by
  have hs := Reaches.names htree hway
  have hrel := relative_of_notMem hn
  by_cases hne : way = []
  · rw [hne, join_nil h hlast, join_slash h.ne_nil hlast, join_of_last h.ne_nil hlast hrel]
    rfl
  · have hway : (d ++ slash :: ofParts way).getLast? ≠ some slash := by
      rw [List.getLast?_append_of_ne_nil _ (List.cons_ne_nil _ _), ← List.singleton_append,
        List.getLast?_append_of_ne_nil _ (row_ne_nil hne hs)]
      exact getLast?_row hne hs
    rw [join_of_last h.ne_nil hlast (relative_row hs),
      join_of_last (List.append_ne_nil_of_left_ne_nil h.ne_nil _) hway hrel,
      ofParts_append hne (List.cons_ne_nil _ _), List.append_assoc]
    rfl

/-- What an extension finds in all directories below one. -/
theorem row_extension (h : Spans fs d q) (hlast : d.getLast? ≠ some slash)
    (hplain : Wildcard.isMagic extension = false) (hway : Reaches fs q way .directory) (p : Text) :
    (∃ n ∈ inDirectory fs true false (join d (ofParts way)) (extensionPart extension),
      p = join (join d (ofParts way)) n) ↔
    ∃ n node, Reaches fs q (way ++ [n]) node ∧ .char '.' :: extension <:+ n ∧
      p = d ++ slash :: ofParts (way ++ [n]) := by
  have hspans := spans_reached htree h hlast hway
  constructor
  · rintro ⟨n, hn, rfl⟩
    obtain ⟨hthere, hvisible, hending⟩ := (mem_inDirectory_extension htree hspans hplain).mp hn
    obtain ⟨node, hnode⟩ := Option.isSome_iff_exists.mp hthere
    refine ⟨n, node, ⟨?_, by rwa [← List.append_assoc]⟩, hending, ?_⟩
    · exact List.forall_mem_append.mpr ⟨hway.visible, List.forall_mem_singleton.mpr hvisible⟩
    · exact join_reached htree h.toLeads hlast hway (htree.proper_of_node? hnode).noSlash
  · rintro ⟨n, node, ⟨hvisible, hnode⟩, hending, rfl⟩
    rw [← List.append_assoc] at hnode
    refine ⟨n, (mem_inDirectory_extension htree hspans hplain).mpr
      ⟨by rw [hnode]; rfl, hvisible n (by simp), hending⟩, ?_⟩
    exact (join_reached htree h.toLeads hlast hway (htree.proper_of_node? hnode).noSlash).symm

/-- The path of what is reached below a directory leads there. -/
theorem locate_reached (h : Spans fs d q) (hlast : d.getLast? ≠ some slash)
    (hreaches : Reaches fs q (way ++ [n]) node) :
    fs.locate follow (d ++ slash :: ofParts (way ++ [n])) = .ok (q ++ (way ++ [n]), node) := by
  have hway := Reaches.above htree hreaches
  have hnode := hreaches.node_eq
  rw [← List.append_assoc] at hnode ⊢
  have hspans := spans_reached htree h hlast hway
  obtain ⟨hshort, hname⟩ := hspans.fits_name hnode
  rw [← join_reached htree h.toLeads hlast hway (htree.proper_of_node? hnode).noSlash]
  exact htree.locate_child hspans.toLeads hnode hname hshort

def deepPattern (directory : Text) : Text := Wildcard.escape directory ++ slash :: deepMark

omit htree in
theorem split_deepPattern (hne : ns ≠ []) (hs : ∀ n ∈ ns, n ≠ [] ∧ slash ∉ n) :
    split (deepPattern (ofParts ns)) = (Wildcard.escape (ofParts ns), deepMark) :=
  split_escape hne hs (by decide)

omit htree in
theorem isMagic_deepPattern (d : Text) : Wildcard.isMagic (deepPattern d) = true := by
  rw [deepPattern, Wildcard.isMagic_append]
  exact Bool.or_true _

/-- The directories to look for two stars in. -/
theorem parents_deepPattern (hne : ns ≠ []) (hs : ∀ n ∈ ns, n ≠ [] ∧ slash ∉ n) {limit : Nat}
    (hlimit : ns.length ≤ limit) :
    FindsAlone fs (ofParts ns) (parents fs true limit (deepPattern (ofParts ns))) :=
  parents_escape (congrArg Prod.fst (split_deepPattern hne hs)) fun hmagic =>
    search_escape htree.isListed hne hs hmagic hlimit

omit htree in
theorem mem_search_deepPattern {limit : Nat} (hne : ns ≠ []) (hs : ∀ n ∈ ns, n ≠ [] ∧ slash ∉ n)
    (x : Text) : x ∈ search fs true (limit + 1) true (deepPattern (ofParts ns)) ↔
      ∃ d ∈ parents fs true limit (deepPattern (ofParts ns)),
        ∃ n ∈ inDirectory fs true true d deepMark, x = join d n := by
  have hsplit := split_deepPattern hne hs
  rw [mem_search_rows (isMagic_deepPattern _)
    (by rw [hsplit]; exact Wildcard.escape_ne_nil (row_ne_nil hne hs)), hsplit]

/-- A pattern with two stars behind an escaped path finds the directory and all those below it that
are not hidden. -/
theorem search_deepPattern (hne : ns ≠ []) (hs : ∀ n ∈ ns, n ≠ [] ∧ slash ∉ n)
    (h : Spans fs (ofParts ns) q) (hshort : Short (ofParts ns)) {limit : Nat}
    (hlimit : ns.length ≤ limit) (x : Text) :
    x ∈ search fs true (limit + 1) true (deepPattern (ofParts ns)) ↔
      ∃ way, Reaches fs q way .directory ∧ x = join (ofParts ns) (ofParts way) := by
  obtain ⟨halone, hthere⟩ := parents_deepPattern htree hne hs hlimit
  have hdirectory : fs.isDirectory (ofParts ns) = true :=
    isDirectory_eq_true.mpr ⟨q, htree.locate_of_leads h.toLeads hshort⟩
  rw [mem_search_deepPattern hne hs]
  constructor
  · rintro ⟨d, hd, n, hn, rfl⟩
    rw [halone d hd] at hn ⊢
    obtain ⟨way, hway, rfl⟩ := (mem_inDirectory_deepMark htree h hshort n).mp hn
    exact ⟨way, hway, rfl⟩
  · rintro ⟨way, hway, rfl⟩
    exact ⟨ofParts ns, hthere hdirectory, ofParts way,
      (mem_inDirectory_deepMark htree h hshort _).mpr ⟨way, hway, rfl⟩, rfl⟩

/-- What is no directory has none below it. -/
theorem search_deepPattern_of_file (hne : ns ≠ []) (hs : ∀ n ∈ ns, n ≠ [] ∧ slash ∉ n)
    (hfile : fs.isDirectory (ofParts ns) = false) {limit : Nat} (hlimit : ns.length ≤ limit) :
    search fs true (limit + 1) true (deepPattern (ofParts ns)) = [] := by
  have hd := row_ne_nil hne hs
  refine List.eq_nil_iff_forall_not_mem.mpr fun x hx => ?_
  obtain ⟨d, hd', n, hn, -⟩ := (mem_search_deepPattern hne hs x).mp hx
  rw [(parents_deepPattern htree hne hs hlimit).alone d hd', inDirectory, if_neg (by decide),
    if_pos (by decide), allBelow_of_notDirectory hd hfile, hfile,
    List.isEmpty_eq_false_iff.mpr hd] at hn
  cases hn

def filesPattern (directory extension : Text) : Text :=
  deepPattern directory ++ slash :: extensionPart extension

omit htree in
theorem split_filesPattern (hextension : slash ∉ extension) :
    split (filesPattern d extension) = (deepPattern d, extensionPart extension) := by
  have hlast : (deepPattern d).getLast? = some (.char '*') := by
    rw [deepPattern, List.getLast?_append_of_ne_nil _ (List.cons_ne_nil _ _)]
    rfl
  refine split_name (List.append_ne_nil_of_right_ne_nil _ (List.cons_ne_nil _ _)) ?_ ?_
  · rw [hlast]
    decide
  · simpa [extensionPart, slash] using hextension

omit htree in
theorem isMagic_filesPattern (d extension : Text) :
    Wildcard.isMagic (filesPattern d extension) = true := by
  rw [filesPattern, Wildcard.isMagic_append, isMagic_deepPattern]
  rfl

omit htree in
theorem parents_filesPattern (hslash : slash ∉ extension) (limit : Nat) :
    parents fs true limit (filesPattern d extension) =
      search fs true limit true (deepPattern d) := by
  have hsplit := split_filesPattern (d := d) hslash
  rw [parents_of_magic fs true limit (by rw [hsplit]; exact isMagic_deepPattern d), hsplit]

omit htree in
theorem filesPattern_dir_ne_nil (hslash : slash ∉ extension) :
    (split (filesPattern d extension)).1 ≠ [] := by
  rw [split_filesPattern hslash]
  exact List.append_ne_nil_of_right_ne_nil _ (List.cons_ne_nil _ _)

omit htree in
theorem mem_search_filesPattern {limit : Nat} (hslash : slash ∉ extension) (p : Text) :
    p ∈ search fs true (limit + 1) false (filesPattern d extension) ↔
      ∃ x ∈ search fs true limit true (deepPattern d),
        ∃ n ∈ inDirectory fs true false x (extensionPart extension), p = join x n := by
  rw [mem_search_rows (isMagic_filesPattern d extension) (filesPattern_dir_ne_nil hslash),
    parents_filesPattern hslash, split_filesPattern hslash]

/-- The files with an extension below a directory are found, with the path of each, and nothing else
is. -/
theorem search_filesPattern (hne : ns ≠ []) (hs : ∀ n ∈ ns, n ≠ [] ∧ slash ∉ n)
    (h : Spans fs (ofParts ns) q) (hshort : Short (ofParts ns)) (hslash : slash ∉ extension)
    (hplain : Wildcard.isMagic extension = false) {limit : Nat} (hlimit : ns.length ≤ limit)
    (p : Text) : p ∈ search fs true (limit + 2) false (filesPattern (ofParts ns) extension) ↔
      ∃ way node, Reaches fs q way node ∧ EndsIn (.char '.' :: extension) way ∧
        p = ofParts ns ++ slash :: ofParts way := by
  have hlast := getLast?_row hne hs
  have hway (x : Text) := search_deepPattern htree hne hs h hshort hlimit x
  rw [mem_search_filesPattern hslash]
  constructor
  · rintro ⟨x, hx, hp⟩
    obtain ⟨way, hreaches, rfl⟩ := (hway x).mp hx
    obtain ⟨n, node, hfile, hending, rfl⟩ :=
      (row_extension htree h hlast hplain hreaches p).mp hp
    exact ⟨way ++ [n], node, hfile, ⟨way, n, rfl, hending⟩, rfl⟩
  · rintro ⟨-, node, hreaches, ⟨way, n, rfl, hending⟩, rfl⟩
    have habove := Reaches.above htree hreaches
    exact ⟨_, (hway _).mpr ⟨way, habove, rfl⟩,
      (row_extension htree h hlast hplain habove _).mpr ⟨n, node, hreaches, hending, rfl⟩⟩

omit htree in
theorem take_filesPattern (hd : d ≠ []) : (filesPattern d extension).take 2 ≠ deepMark := by
  intro h
  obtain ⟨a, rest, hescape⟩ := List.exists_cons_of_ne_nil (Wildcard.escape_ne_nil hd)
  have hhead := head?_escape d
  rw [filesPattern, deepPattern, hescape, List.cons_append, List.cons_append,
    List.take_succ_cons] at h
  rw [hescape, List.head?_cons, (List.cons.inj h).1] at hhead
  exact hhead rfl

omit htree in
theorem length_filesPattern (extension : Text) (hs : ∀ n ∈ ns, n ≠ [] ∧ slash ∉ n) :
    ∃ limit, (filesPattern (ofParts ns) extension).length = limit + 1 ∧ ns.length ≤ limit := by
  have hrow : ns.length ≤ (Wildcard.escape (ofParts ns)).length := by
    rw [escape_ofParts, ← List.length_map Wildcard.escape]
    exact length_le_ofParts (row_escape hs)
  refine ⟨(deepPattern (ofParts ns)).length + (extensionPart extension).length, ?_, ?_⟩
  · rw [filesPattern, List.length_append, List.length_cons, Nat.add_assoc]
  · rw [deepPattern, List.length_append]
    omega

/-- The paths of the files with an extension below a directory of a tree: those that names which are
not hidden lead to. -/
theorem mem_paths_filesPattern {found : List Text} (hne : ns ≠ [])
    (hs : ∀ n ∈ ns, n ≠ [] ∧ slash ∉ n) (hlocate : fs.locate true (ofParts ns) = .ok (q, node))
    (h : node = .directory → Spans fs (ofParts ns) q) (hslash : slash ∉ extension)
    (hplain : Wildcard.isMagic extension = false)
    (hfound : paths fs true (filesPattern (ofParts ns) extension) = .ok found) (p : Text) :
    p ∈ found ↔ ∃ way node, Reaches fs q way node ∧ EndsIn (.char '.' :: extension) way ∧
      p = ofParts ns ++ slash :: ofParts way := by
  obtain ⟨limit, hlength, hlimit⟩ := length_filesPattern extension hs
  rw [mem_paths hfound fun _ => take_filesPattern (row_ne_nil hne hs), hlength]
  by_cases hdirectory : node = .directory
  · subst hdirectory
    exact search_filesPattern htree hne hs (h rfl) (short_of_locate hlocate).2.2 hslash hplain hlimit p
  · have hfile : fs.isDirectory (ofParts ns) = false := by
      refine Bool.eq_false_iff.mpr fun htrue => hdirectory ?_
      obtain ⟨r, hr⟩ := isDirectory_eq_true.mp htrue
      rw [hlocate] at hr
      cases hr
      rfl
    rw [mem_search_filesPattern hslash, search_deepPattern_of_file htree hne hs hfile hlimit]
    refine ⟨fun ⟨x, hx, _⟩ => absurd hx List.not_mem_nil, ?_⟩
    -- Nothing is below a file.
    rintro ⟨way, node', hreaches, hending, -⟩
    have hq := htree.node?_of_below hending.ne_nil hreaches.node_eq
    exact absurd (Option.some.inj ((htree.node?_of_locate hlocate).symm.trans hq)) hdirectory

end Glob

end Terraload
