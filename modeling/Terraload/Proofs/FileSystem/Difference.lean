import Terraload.Proofs.FileSystem.Building
import Terraload.Proofs.FileSystem.Cleaning
/-!
Two trees that are told apart at one place alone, at which each has a file or nothing. A path that
does not lead to this place leads to the same in both.
-/
namespace Terraload.FileSystem

open Terraload.Path

variable {fs fs' : FileSystem} {place here : Place} {p : Text} {steps : List Text}
  {r : Place × Node} {follow : Bool}

/-- Steps without two dots go down by their names. -/
theorem go_place (hup : dotdot ∉ steps) (h : fs.go here steps = .ok r) :
    r.1 = here ++ steps.filter (· != dot) := by
  induction steps generalizing here with
  | nil =>
    cases h
    simp
  | cons c steps ih =>
    rw [List.mem_cons, not_or] at hup
    by_cases hdot : c = dot
    · subst hdot
      exact ih hup.2 h
    rw [List.filter_cons_of_pos (by simpa using hdot)]
    obtain ⟨-, ⟨-, hgo⟩ | ⟨b, -, rfl, rfl⟩⟩ := go_name hdot (Ne.symm hup.1) h
    · rw [ih hup.2 hgo, List.append_assoc]
      rfl
    · rfl

theorem Tree.locate_place (htree : fs.Tree) (hrel : Relative p) (hup : dotdot ∉ names p)
    (h : fs.locate true p = .ok r) : r.1 = fs.current ++ names p := by
  have hnames : (names p).filter (· != dot) = names p :=
    List.filter_eq_self.mpr fun n hn => by simpa using (mem_names.mp hn).2.2
  rw [go_place hup (htree.go_names hrel h), hnames]

def FileOrNothing (fs : FileSystem) (place : Place) : Prop :=
  ∀ node, fs.node? place = some node → ∃ bytes, node = .file bytes

/-- Two file systems that start from the same directory and differ at one place at most, where each
has a file or nothing. -/
structure DifferAt (place : Place) (fs fs' : FileSystem) : Prop where
  current : fs'.current = fs.current
  elsewhere : ∀ q, q ≠ place → fs'.node? q = fs.node? q
  left : fs.FileOrNothing place
  right : fs'.FileOrNothing place

structure Alike (fs fs' : FileSystem) (p : Text) : Prop where
  exists_eq : fs'.exists? p = fs.exists? p
  read_eq : fs.exists? p = true → fs'.read p = fs.read p

theorem differAt_insert (h : fs.node? place = none) (bytes : Bytes) :
    DifferAt place fs (fs.insert place (.file bytes)) where
  current := rfl
  elsewhere q hq := by
    rw [node?_insert, if_neg hq]
    split
    next hstart => rw [node?_of_initial hstart]
    next => rfl
  left node hnode := by
    rw [h] at hnode
    cases hnode
  right node hnode := by
    have hstart : ¬ place <+: fs.current := fun hstart => by
      rw [node?_of_initial hstart] at h
      cases h
    rw [node?_insert, if_neg hstart, if_pos rfl] at hnode
    exact ⟨bytes, (Option.some.inj hnode).symm⟩

namespace DifferAt

theorem symm (h : DifferAt place fs fs') : DifferAt place fs' fs where
  current := h.current.symm
  elsewhere q hq := (h.elsewhere q hq).symm
  left := h.right
  right := h.left

theorem go (h : DifferAt place fs fs') (hgo : fs.go here steps = .ok r) (hr : r.1 ≠ place) :
    fs'.go here steps = .ok r := by
  induction steps generalizing here with
  | nil => exact hgo
  | cons c steps ih =>
    by_cases hdot : c = dot
    · subst hdot
      exact ih hgo
    by_cases hdotdot : c = dotdot
    · subst hdotdot
      rw [go_dotdot] at hgo
      exact ih hgo
    obtain ⟨hshort, ⟨hnode, hgo⟩ | ⟨b, hnode, rfl, rfl⟩⟩ := go_name hdot hdotdot hgo
    · -- A directory is at none of the places that the two differ at.
      have hne : here ++ [c] ≠ place := by
        rintro rfl
        obtain ⟨b, hb⟩ := h.left _ hnode
        cases hb
      rw [← h.elsewhere _ hne] at hnode
      rw [FileSystem.go, walkWith_name hdot hdotdot, if_neg (Nat.not_lt.mpr hshort), hnode]
      exact ih hgo
    · rw [← h.elsewhere _ hr] at hnode
      rw [FileSystem.go, walkWith_name hdot hdotdot, if_neg (Nat.not_lt.mpr hshort), hnode]
      rfl

variable (h : DifferAt place fs fs') (htree : fs.Tree) (htree' : fs'.Tree)
include h htree htree'

theorem locate (hlocate : fs.locate follow p = .ok r) (hr : r.1 ≠ place) :
    fs'.locate follow p = .ok r := by
  obtain ⟨hp, hnul, hshort⟩ := short_of_locate hlocate
  rw [locate_iff hp hnul hshort, htree.walk_eq] at hlocate
  rw [locate_iff hp hnul hshort, htree'.walk_eq, h.current]
  exact h.go hlocate hr

theorem locate_iff (hp : ∀ r, fs.locate true p = .ok r → r.1 ≠ place)
    (hp' : ∀ r, fs'.locate true p = .ok r → r.1 ≠ place) :
    fs'.locate true p = .ok r ↔ fs.locate true p = .ok r :=
  ⟨fun hr => h.symm.locate htree' htree hr (hp' r hr), fun hr => h.locate htree htree' hr (hp r hr)⟩

/-- A path that leads to the place in neither of them. -/
theorem alike (hp : ∀ r, fs.locate true p = .ok r → r.1 ≠ place)
    (hp' : ∀ r, fs'.locate true p = .ok r → r.1 ≠ place) : Alike fs fs' p where
  exists_eq := by
    have hlocate (r : Place × Node) := h.locate_iff htree htree' (r := r) hp hp'
    rw [Bool.eq_iff_iff, exists?_eq_true, exists?_eq_true]
    exact exists_congr hlocate
  read_eq there := by
    obtain ⟨r, hlocate⟩ := exists?_eq_true.mp there
    have hlocate' := h.locate htree htree' hlocate (hp r hlocate)
    have hclean := locate_clean hlocate
    have hclean' := locate_clean hlocate'
    simp only [read, hclean, hclean']

end DifferAt

end Terraload.FileSystem
