import Xv6.Param

namespace Xv6.User
set_option autoImplicit true

/-- What system calls read of a process: `sz`, stack pointer and memory. -/
structure Caller where
  sz : UInt32
  esp : UInt32
  mem : UInt32 → UInt8

def Caller.word (u : Caller) (addr : UInt32) : UInt32 :=
  (u.mem addr).toUInt32 ||| (u.mem (addr + 1)).toUInt32 <<< 8 |||
    (u.mem (addr + 2)).toUInt32 <<< 16 ||| (u.mem (addr + 3)).toUInt32 <<< 24

def fetchint (u : Caller) (addr : UInt32) : Option UInt32 :=
  if u.sz ≤ addr ∨ u.sz < addr + 4 then none else some (u.word addr)

def argint (u : Caller) (n : Nat) : Option UInt32 :=
  fetchint u (u.esp + 4 + 4 * UInt32.ofNat n)

def argptr (u : Caller) (n : Nat) (size : UInt32) : Option UInt32 := do
  let i ← argint u n
  if size.toInt32 < 0 ∨ u.sz ≤ i ∨ u.sz < i + size then none else some i

end Xv6.User
