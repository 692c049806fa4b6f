import Mathlib.Algebra.BigOperators.Pi
import Mathlib.Algebra.BigOperators.Ring.Finset
import Mathlib.Algebra.Order.BigOperators.Group.Finset
import Xv6.Kernel.Files

namespace Xv6.Kernel
open Lib Fs
open Sys (tDir tFile nOFile oCreate)
set_option autoImplicit true

def File.held (x : File) : Key → Int :=
  if 0 < x.ref ∧ x.type = .inode then Kernel.ref x.ip else 0

def cwdHeld (o : Option Slot) : Key → Int :=
  o.elim 0 ref

/-- The references that files and current directories keep. -/
def Files.held (t : Files) : Key → Int :=
  ∑ f, (t.file f).held + ∑ p, cwdHeld (t.cwd p)

theorem held_setFile (t : Files) (f : FileId) (x : File) :
    (t.setFile f x).held = t.held - (t.file f).held + x.held := by
  rw [Files.held, Files.held]
  show ∑ g, File.held (Function.update t.file f x g) + _ = _
  rw [sum_update]
  show _ + ∑ p, cwdHeld (t.cwd p) = _
  abel

theorem held_setCwd (t : Files) (p : Proc) (o : Option Slot) :
    (t.setCwd p o).held = t.held - cwdHeld (t.cwd p) + cwdHeld o := by
  rw [Files.held, Files.held]
  show _ + ∑ q, cwdHeld (Function.update t.cwd p o q) = _
  rw [sum_update]
  show ∑ f, (t.file f).held + _ = _
  abel

theorem held_setFd (t : Files) (x : Proc × Fin nOFile) (o : Option FileId) :
    (t.setFd x o).held = t.held :=
  rfl

theorem solvent_held (t : Files) : Solvent t.held := by
  intro i
  rw [Files.held, Pi.add_apply, Finset.sum_apply, Finset.sum_apply]
  apply add_nonneg
  · apply Finset.sum_nonneg
    intro f _
    rw [File.held]
    split
    · exact ref_nonneg _ i
    · exact Int.le_refl 0
  · apply Finset.sum_nonneg
    intro p _
    rw [cwdHeld]
    cases t.cwd p with
    | none => exact Int.le_refl 0
    | some j => exact ref_nonneg j i

/-- How many files and current directories refer to inode `i`. -/
def Files.refs (t : Files) (i : Slot) : Nat :=
  (Finset.univ.filter fun f => 0 < (t.file f).ref ∧ (t.file f).type = .inode ∧
    (t.file f).ip = i).card + (Finset.univ.filter fun p => t.cwd p = some i).card

theorem ref_apply (j i : Slot) : ref j (.ref i) = if j = i then 1 else 0 := by
  rw [ref, Pi.single_apply]
  simp only [Key.ref.injEq, eq_comm]

theorem File.held_ref (x : File) (i : Slot) :
    x.held (.ref i) = if 0 < x.ref ∧ x.type = .inode ∧ x.ip = i then 1 else 0 := by
  rw [held]
  split
  · next h =>
    rw [ref_apply]
    simp only [h, true_and]
  · next h =>
    rw [if_neg fun hx => h ⟨hx.1, hx.2.1⟩]
    rfl

theorem cwdHeld_ref (o : Option Slot) (i : Slot) :
    cwdHeld o (.ref i) = if o = some i then 1 else 0 := by
  cases o with
  | none => rfl
  | some j =>
    show ref j (.ref i) = _
    rw [ref_apply]
    simp only [Option.some.injEq]

theorem held_ref (t : Files) (i : Slot) : t.held (.ref i) = t.refs i := by
  rw [Files.held, Pi.add_apply, Finset.sum_apply, Finset.sum_apply, Files.refs, Nat.cast_add,
    Finset.natCast_card_filter, Finset.natCast_card_filter]
  simp only [File.held_ref, cwdHeld_ref]

theorem ref_of_ne (j : Slot) (h : ∀ i, k ≠ .ref i) : ref j k = 0 :=
  Pi.single_eq_of_ne (h j) 1

theorem held_of_ne (t : Files) (h : ∀ i, k ≠ .ref i) : t.held k = 0 := by
  have hfile : ∀ f, (t.file f).held k = 0 := by
    intro f
    rw [File.held]
    split
    · exact ref_of_ne _ h
    · rfl
  have hcwd : ∀ p, cwdHeld (t.cwd p) k = 0 := by
    intro p
    cases t.cwd p with
    | none => rfl
    | some i => exact ref_of_ne i h
  rw [Files.held, Pi.add_apply, Finset.sum_apply, Finset.sum_apply]
  simp only [hfile, hcwd, Finset.sum_const_zero, add_zero]

end Xv6.Kernel
