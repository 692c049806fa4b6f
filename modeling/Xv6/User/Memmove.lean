import Mathlib.Algebra.Group.Nat.Defs
import Mathlib.Logic.Function.Basic

namespace Xv6.Memmove
open Function
set_option autoImplicit true

variable {m : Nat → UInt8} {d s n dst src : Nat}

/-- `while(n-- > 0) *d++ = *s++`. -/
def copyUp (m : Nat → UInt8) (d s : Nat) : Nat → Nat → UInt8
  | 0 => m
  | n + 1 => copyUp (update m d (m s)) (d + 1) (s + 1) n

/-- `while(n-- > 0) *--d = *--s`. -/
def copyDown (m : Nat → UInt8) (d s : Nat) : Nat → Nat → UInt8
  | 0 => m
  | n + 1 => copyDown (update m (d - 1) (m (s - 1))) (d - 1) (s - 1) n

/-- `memmove` of string.c; `s + n` is a sum of 32-bit numbers. -/
def Kern.memmove (m : Nat → UInt8) (dst src n : Nat) : Nat → UInt8 :=
  if src < dst ∧ dst < (src + n) % 2 ^ 32 then copyDown m (dst + n) (src + n) n
  else copyUp m dst src n

/-- `memmove` of ulib.c, whose `n` is an `int`. -/
def Ulib.memmove (m : Nat → UInt8) (dst src : Nat) (n : Int) : Nat → UInt8 :=
  copyUp m dst src n.toNat

/-- The memory with the `n` bytes of `src` at `dst`. -/
def moved (m : Nat → UInt8) (dst src n : Nat) : Nat → UInt8 := fun a =>
  if dst ≤ a ∧ a < dst + n then m (src + (a - dst)) else m a

end Xv6.Memmove
