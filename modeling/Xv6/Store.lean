import Xv6.Param
import Mathlib.Logic.Function.Basic

namespace Xv6
open Function
set_option autoImplicit true

/-- The disk: `view` is what `bread` returns, `disk` is what survives a crash. -/
structure Store where
  view : Nat → Block
  disk : Nat → Block

def Store.boot (d : Nat → Block) : Store := ⟨d, d⟩

/-- A holder of the buffer of block `b` changes its data. -/
def Store.modify (s : Store) (b : Nat) (d : Block) : Store :=
  { s with view := update s.view b d }

/-- The buffer of block `b` goes to the disk. -/
def Store.bwrite (s : Store) (b : Nat) : Store :=
  { s with disk := update s.disk b (s.view b) }

/-- Fill the buffer of block `b` with `d` and write it out. -/
def Store.put (s : Store) (b : Nat) (d : Block) : Store := (s.modify b d).bwrite b

@[simp] theorem Store.boot_view (d : Nat → Block) : (Store.boot d).view = d := rfl

@[simp] theorem Store.boot_disk (d : Nat → Block) : (Store.boot d).disk = d := rfl

@[simp] theorem Store.modify_disk (s : Store) : (s.modify b d).disk = s.disk := rfl

@[simp] theorem Store.modify_view (s : Store) :
    (s.modify b d).view = update s.view b d := rfl

@[simp] theorem Store.put_view (s : Store) :
    (s.put b d).view = update s.view b d := rfl

@[simp] theorem Store.put_disk (s : Store) :
    (s.put b d).disk = update s.disk b d := by
  simp only [put, bwrite, modify, update_self]

end Xv6
