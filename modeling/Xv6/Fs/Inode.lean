import Xv6.Fs.Layout
import Xv6.Lib.Exec

namespace Xv6.Fs
open Lib
set_option autoImplicit true

/-- The inner loop of `balloc`: the first clear bit among the first `len`. -/
def clearBitIn (blk : Block) (len : Nat) : Option Nat :=
  (List.range len).find? fun bi => !bitAt blk bi

/-- The loops of `balloc`, over the blocks of the bitmap and the bits of each. -/
def St.findFree (s : St) : Option Nat :=
  (List.range ((s.sb.size + (bpb - 1)) / bpb)).findSome? fun k =>
    (clearBitIn (s.blocks (s.sb.bblock (k * bpb))) (min bpb (s.sb.size - k * bpb))).map
      (k * bpb + ·)

def bzero (s : St) (b : Nat) : St := s.setBlock b fun _ => 0

def balloc (s : St) : Except Fault (St × Nat) :=
  match s.findFree with
  | some b =>
    let bp := s.blocks (s.sb.bblock b)
    .ok (bzero (s.setBlock (s.sb.bblock b) (setBit bp (b % bpb))) b, b)
  | none => .error (.panic "balloc: out of blocks")

def bfree (s : St) (b : Nat) : Except Fault St :=
  let bp := s.blocks (s.sb.bblock b)
  if bitAt bp (b % bpb) = false then .error (.panic "freeing free block")
  else .ok (s.setBlock (s.sb.bblock b) (clearBit bp (b % bpb)))

def iupdate (s : St) (i : Nat) (ip : Inode) : St :=
  s.setBlock (s.sb.iblock i) (writeInode (s.blocks (s.sb.iblock i)) (i % ipb) ip)

def ialloc (s : St) (type : Nat) : Except Fault (St × Nat) :=
  match ((List.range s.sb.ninodes).drop 1).find? fun i => (s.dinode i).type == 0 with
  | some i => .ok (iupdate s i ⟨type, 0, 0, 0, 0, fun _ => 0⟩, i)
  | none => .error (.panic "ialloc: no inodes")

/-- `ip->addrs[k]`, allocated if it is zero. -/
def addrOf (s : St) (ip : Inode) (k : Fin (nDirect + 1)) : Except Fault (St × Inode × Nat) :=
  if ip.addrs k = 0 then do
    let (s, b) ← balloc s
    .ok (s, { ip with addrs := Function.update ip.addrs k b }, b)
  else .ok (s, ip, ip.addrs k)

/-- The address of block `bn`, and the inode with what was allocated for it. -/
def bmap (s : St) (ip : Inode) (bn : Nat) : Except Fault (St × Inode × Nat) :=
  if h : bn < nDirect then addrOf s ip ⟨bn, Nat.lt_succ_of_lt h⟩
  else if bn - nDirect < nIndirect then do
    let (s, ip, addr) ← addrOf s ip (Fin.last nDirect)
    if getWord (s.blocks addr) (bn - nDirect) = 0 then do
      let (s, b) ← balloc s
      .ok (s.setBlock addr (putWord (s.blocks addr) (bn - nDirect) b), ip, b)
    else .ok (s, ip, getWord (s.blocks addr) (bn - nDirect))
  else .error (.panic "bmap: out of range")

/-- Both loops of `itrunc` free the addresses that are not zero. -/
def freeAll (s : St) : List Nat → Except Fault St
  | [] => .ok s
  | a :: as => do
    let s ← if a = 0 then .ok s else bfree s a
    freeAll s as

/-- `itrunc` up to its `iupdate`. -/
def freeBlocks (s : St) (ip : Inode) : Except Fault St := do
  let s ← freeAll s ((List.finRange nDirect).map fun k => ip.addrs k.castSucc)
  let addr := ip.addrs (Fin.last nDirect)
  if addr = 0 then .ok s else do
    let s ← freeAll s ((List.range nIndirect).map (getWord (s.blocks addr)))
    bfree s addr

def Inode.truncated (ip : Inode) : Inode := { ip with addrs := fun _ => 0, size := 0 }

def itrunc (s : St) (i : Nat) (ip : Inode) : Except Fault (St × Inode) := do
  let s ← freeBlocks s ip
  .ok (iupdate s i ip.truncated, ip.truncated)

def memmove (blk : Block) (off m : Nat) (src : Nat → UInt8) : Block := fun k =>
  if off ≤ k.val ∧ k.val < off + m then src (k.val - off) else blk k

/-- The loop of `writei`, with `n` bytes left; it takes at most `n` rounds. -/
def writeLoop : Nat → St → Inode → (Nat → UInt8) → Nat → Nat → Except Fault (St × Inode)
  | 0, s, ip, _, _, _ => .ok (s, ip)
  | fuel + 1, s, ip, src, off, n =>
    if n = 0 then .ok (s, ip)
    else do
      let (s, ip, a) ← bmap s ip (off / bSize)
      let m := min n (bSize - off % bSize)
      writeLoop fuel (s.setBlock a (memmove (s.blocks a) (off % bSize) m src)) ip
        (fun k => src (m + k)) (off + m) (n - m)

/-- What the handlers in `devsw` return for a major number and a count. -/
abbrev Devsw := Nat → Option (Nat → Int)

def devResult (devsw : Devsw) (ip : Inode) (n : Nat) : Int :=
  match devsw ip.major with
  | some f => f n
  | none => -1

/-- `writei`; `off + n` is a sum of 32-bit numbers. -/
def writei (devsw : Devsw) (s : St) (i : Nat) (ip : Inode) (src : Nat → UInt8)
    (off n : UInt32) : Except Fault (St × Inode × Int) :=
  if ip.type = tDev then .ok (s, ip, devResult devsw ip n.toNat)
  else if ip.size < off.toNat ∨ off + n < off then .ok (s, ip, -1)
  else if maxFile * bSize < (off + n).toNat then .ok (s, ip, -1)
  else do
    let (s, ip) ← writeLoop n.toNat s ip src off.toNat n.toNat
    if 0 < n.toNat ∧ ip.size < (off + n).toNat then
      let ip := { ip with size := (off + n).toNat }
      .ok (iupdate s i ip, ip, n.toNat)
    else .ok (s, ip, n.toNat)

def readLoop : Nat → St → Inode → Nat → Nat → Except Fault (St × Inode × List UInt8)
  | 0, s, ip, _, _ => .ok (s, ip, [])
  | fuel + 1, s, ip, off, n =>
    if n = 0 then .ok (s, ip, [])
    else do
      let (s, ip, a) ← bmap s ip (off / bSize)
      let m := min n (bSize - off % bSize)
      let (s', ip, rest) ← readLoop fuel s ip (off + m) (n - m)
      .ok (s', ip, (List.range m).map (fun k => byteAt (s.blocks a) (off % bSize + k)) ++ rest)

def readi (devsw : Devsw) (s : St) (ip : Inode) (off n : UInt32) :
    Except Fault (St × Inode × List UInt8 × Int) :=
  if ip.type = tDev then .ok (s, ip, [], devResult devsw ip n.toNat)
  else if ip.size < off.toNat ∨ off + n < off then .ok (s, ip, [], -1)
  else do
    let n := if ip.size < (off + n).toNat then ip.size - off.toNat else n.toNat
    let (s, ip, dst) ← readLoop n s ip off.toNat n
    .ok (s, ip, dst, n)

/-- The last `iput` of an inode: without links it is truncated and freed. -/
def iput (s : St) (i : Nat) (ip : Inode) : Except Fault St :=
  if ip.nlink = 0 then do
    let (s, ip) ← itrunc s i ip
    .ok ((iupdate s i { ip with type := 0 }).uncache i)
  else .ok s

/-- What is asked of an inode, locked apart from `ialloc` and `ilock`. -/
inductive Op where
  | ialloc (type : UInt16)
  | ilock (i : Nat)
  | writei (i : Nat) (src : Nat → UInt8) (off n : UInt32)
  | readi (i : Nat) (off n : UInt32)
  | itrunc (i : Nat)
  | iput (i : Nat)
  | setMeta (i : Nat) (major minor nlink : UInt16)
  | recycle (i : Nat)

/-- One operation, run to completion. `setMeta` stands for the changes of sysfile.c, `recycle` for
the reuse of a cache entry by `iget`. -/
def step (devsw : Devsw) (s : St) : Op → Except Fault St
  | .ialloc type => do
    let (s, _) ← ialloc s type.toNat
    .ok s
  | .ilock i =>
    match s.icache i with
    | some _ => .ok s
    | none =>
      if (s.dinode i).type = 0 then .error (.panic "ilock: no type")
      else .ok (s.cache i (s.dinode i))
  | .writei i src off n =>
    match s.icache i with
    | some ip => do
      let (s, ip, _) ← writei devsw s i ip src off n
      .ok (s.cache i ip)
    | none => .error .blocked
  | .readi i off n =>
    match s.icache i with
    | some ip => do
      let (s, ip, _) ← readi devsw s ip off n
      .ok (s.cache i ip)
    | none => .error .blocked
  | .itrunc i =>
    match s.icache i with
    | some ip => do
      let (s, ip) ← itrunc s i ip
      .ok (s.cache i ip)
    | none => .error .blocked
  | .iput i =>
    match s.icache i with
    | some ip => iput s i ip
    | none => .ok s
  | .setMeta i major minor nlink =>
    match s.icache i with
    | some ip =>
      let ip := { ip with
        major := major.toNat, minor := minor.toNat, nlink := nlink.toNat }
      .ok ((iupdate s i ip).cache i ip)
    | none => .error .blocked
  | .recycle i => .ok (s.uncache i)

/-- Inode numbers come from `ialloc` and from directory entries. -/
def legal (s : St) : Op → Bool
  | .ilock i => decide (i < s.sb.ninodes)
  | _ => true

end Xv6.Fs
