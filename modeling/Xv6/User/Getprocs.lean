import Xv6.Proc.Table
import Xv6.User.Args
import Mathlib.Data.List.Forall2

namespace Xv6.User
open Proc
set_option autoImplicit true

structure Uproc where
  pid : UInt32
  name : List UInt8
  state : ProcState

abbrev uprocSize : Nat := 24

def safestrcpy : Nat → List UInt8 → List UInt8 → List UInt8
  | 0, s, _ => s
  | 1, s, _ => 0 :: s.tail
  | n + 2, s, t =>
    let c := t.headD 0
    if c = 0 then c :: 0 :: s.tail.tail else c :: safestrcpy (n + 1) s.tail t.tail

def Uproc.fill (tmp : Uproc) (t : Ptable) (name : Slot → List UInt8) (p : Slot) : Uproc where
  pid := t.pid p
  state := t.state p
  name := safestrcpy 16 tmp.name (name p)

/-- The loop of `sys_getprocs`: the final `i`, and the entries stored. -/
def copyProcs (t : Ptable) (name : Slot → List UInt8) (ubuf : UInt32) (max : Nat) :
    List Slot → Nat → Uproc → List (UInt32 × Uproc) → Nat × List (UInt32 × Uproc)
  | [], i, _, out => (i, out)
  | p :: ps, i, tmp, out =>
    if i < max then
      if t.state p = .unused then copyProcs t name ubuf max ps i tmp out
      else
        let tmp := tmp.fill t name p
        copyProcs t name ubuf max ps (i + 1) tmp
          (out ++ [(ubuf + UInt32.ofNat uprocSize * UInt32.ofNat i, tmp)])
    else (i, out)

/-- `none` stands for -1. `tmp` is what the kernel stack holds before. -/
def sysGetprocs (u : Caller) (t : Ptable) (name : Slot → List UInt8) (tmp : Uproc) :
    Option (Nat × List (UInt32 × Uproc)) := do
  let max ← argint u 1
  if max.toInt32 ≤ 0 then none
  else
    let ubuf ← argptr u 0 (max * UInt32.ofNat uprocSize)
    some (copyProcs t name ubuf max.toNat (List.finRange nProc) 0 tmp [])

def stored (x : UInt32 × Uproc) : List UInt32 :=
  (List.range uprocSize).map fun k => x.1 + UInt32.ofNat k

def cstring (s : List UInt8) : List UInt8 :=
  s.takeWhile (· ≠ 0)

/-- An entry describes a process; names are cut to 15 bytes. -/
structure Describes (t : Ptable) (name : Slot → List UInt8) (p : Slot) (x : Uproc) : Prop where
  pid : x.pid = t.pid p
  state : x.state = t.state p
  name : cstring x.name = cstring ((name p).take 15)

def inUse (t : Ptable) (ps : List Slot) : List Slot :=
  ps.filter fun p => t.state p ≠ .unused

/-- What the loop has stored after the entries `out`, from entry `i` on. -/
structure Copied (t : Ptable) (name : Slot → List UInt8) (ubuf : UInt32) (i : Nat)
    (ps : List Slot) (new : List (UInt32 × Uproc)) : Prop where
  addrs : new.map Prod.fst =
    (List.range' i ps.length).map fun j => ubuf + UInt32.ofNat uprocSize * UInt32.ofNat j
  entries : List.Forall₂ (Describes t name) ps (new.map Prod.snd)

theorem Copied.within (h : Copied t name ubuf 0 ps out) (hend : ubuf.toNat + ps.length * uprocSize ≤ sz)
    (hsz : sz < 2 ^ 32) (hx : x ∈ out) (ha : a ∈ stored x) : a.toNat < sz := by
  have haddr : x.1 ∈ out.map Prod.fst := List.mem_map_of_mem hx
  rw [h.addrs] at haddr
  obtain ⟨j, hj, hx₁⟩ := List.mem_map.1 haddr
  obtain ⟨k, hk, rfl⟩ := List.mem_map.1 ha
  rw [List.mem_range'_1] at hj
  rw [List.mem_range] at hk
  simp only [uprocSize] at hend hk hx₁
  rw [← hx₁]
  simp only [UInt32.toNat_add, UInt32.toNat_mul, UInt32.toNat_ofNat']
  omega

def onePage (ubuf max : UInt32) : Caller where
  sz := 4096
  esp := 0
  mem a :=
    if a < 8 then (ubuf >>> (8 * (a - 4))).toUInt8 else (max >>> (8 * (a - 8))).toUInt8

def initcode (_ : Slot) : List UInt8 :=
  [105, 110, 105, 116, 99, 111, 100, 101, 0, 0, 0, 0, 0, 0, 0, 0]

end Xv6.User
