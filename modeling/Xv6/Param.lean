import Xv6.Lib.Bytes

namespace Xv6
set_option autoImplicit true

abbrev maxOpBlocks : Nat := 10
abbrev logSize : Nat := maxOpBlocks * 3
abbrev nBuf : Nat := maxOpBlocks * 3
abbrev fsSize : Nat := 1000
abbrev bSize : Nat := 512

abbrev Pid := Nat

instance neZero16 : NeZero 16 := ⟨by decide⟩

instance neZero64 : NeZero 64 := ⟨by decide⟩

instance neZero128 : NeZero 128 := ⟨by decide⟩

/-- Blocks are moved between memory and disk as a whole. -/
abbrev Block := Lib.Bytes bSize

/-- A process has to wait, the kernel panics, or an array would be overrun. -/
inductive Fault where
  | blocked
  | panic (msg : String)
  | overflow
  deriving DecidableEq, Repr

end Xv6
