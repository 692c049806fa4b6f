import Xv6.Kernel.Path

namespace Xv6.Mkfs
open Lib Fs
open Sys (rootIno tDir tFile slash)
open Kernel (direntBytes)
set_option autoImplicit true

abbrev nInodes : Nat := 200
abbrev nBitmap : Nat := fsSize / (bSize * 8) + 1
abbrev nInodeBlocks : Nat := nInodes / ipb + 1
abbrev nLog : Nat := logSize

/-- The number of meta blocks: boot block, super block, log, inodes, bit map. -/
abbrev nMeta : Nat := 2 + nLog + nInodeBlocks + nBitmap

abbrev nBlocks : Nat := fsSize - nMeta

def sbWords : List Nat :=
  [fsSize, nBlocks, nInodes, nLog, 2, 2 + nLog, 2 + nLog + nInodeBlocks]

/-- The global `sb`, as far as fs.c uses the fields. -/
def sb : Superblock := ⟨fsSize, nBlocks, nInodes, 2 + nLog, 2 + nLog + nInodeBlocks⟩

/-- Why mkfs ends before it is done. -/
inductive Abort where
  | noFile (name : List UInt8)
  | read
  | assert (cond : String)
  deriving DecidableEq, Repr

/-- The file that mkfs writes, `len` sectors long, and the counters. -/
structure Image where
  len : Nat
  sect : Nat → Block
  freeinode : Nat
  freeblock : Nat

def wsect (m : Image) (sec : Nat) (buf : Block) : Image :=
  { m with len := max m.len (sec + 1), sect := Function.update m.sect sec buf }

def rsect (m : Image) (sec : Nat) : Except Abort Block :=
  if sec < m.len then .ok (m.sect sec) else .error .read

def winode (m : Image) (inum : Nat) (ip : Inode) : Except Abort Image := do
  let buf ← rsect m (sb.iblock inum)
  .ok (wsect m (sb.iblock inum) (writeInode buf (inum % ipb) ip))

def rinode (m : Image) (inum : Nat) : Except Abort Inode := do
  let buf ← rsect m (sb.iblock inum)
  .ok (readInode buf (inum % ipb))

def newInode (type : Nat) : Inode := ⟨type, 0, 0, 1, 0, fun _ => 0⟩

def ialloc (m : Image) (type : Nat) : Except Abort (Image × Nat) := do
  let inum := m.freeinode
  let m ← winode { m with freeinode := inum + 1 } inum (newInode type)
  .ok (m, inum)

/-- The loop of `balloc`, which marks the first `used` blocks. -/
def usedBits : Nat → Block
  | 0 => fun _ => 0
  | i + 1 => setBit (usedBits i) i

def balloc (m : Image) (used : Nat) : Except Abort Image :=
  if used < bSize * 8 then .ok (wsect m sb.bmapstart (usedBits used))
  else .error (.assert "used < BSIZE*8")

/-- `din.addrs[k]`, taken from `freeblock` if it is zero. -/
def addrOf (m : Image) (din : Inode) (k : Fin (nDirect + 1)) : Image × Inode × Nat :=
  if din.addrs k = 0 then
    ({ m with freeblock := m.freeblock + 1 },
      { din with addrs := Function.update din.addrs k m.freeblock }, m.freeblock)
  else (m, din, din.addrs k)

/-- The sector `x` of `iappend` for block `fbn` of the file. -/
def blockOf (m : Image) (din : Inode) (fbn : Nat) : Except Abort (Image × Inode × Nat) :=
  if h : fbn < nDirect then .ok (addrOf m din ⟨fbn, Nat.lt_succ_of_lt h⟩)
  else do
    let (m, din, addr) := addrOf m din (Fin.last nDirect)
    let indirect ← rsect m addr
    if getWord indirect (fbn - nDirect) = 0 then
      .ok (wsect { m with freeblock := m.freeblock + 1 } addr
        (putWord indirect (fbn - nDirect) m.freeblock), din, m.freeblock)
    else .ok (m, din, getWord indirect (fbn - nDirect))

/-- The loop of `iappend`, with `n` bytes left; at most `n` rounds. -/
def appendLoop : Nat → Image → Inode → (Nat → UInt8) → Nat → Nat →
    Except Abort (Image × Inode × Nat)
  | 0, m, din, _, off, _ => .ok (m, din, off)
  | fuel + 1, m, din, p, off, n =>
    if n = 0 then .ok (m, din, off)
    else if off / bSize < maxFile then do
      let (m, din, x) ← blockOf m din (off / bSize)
      let n1 := min n ((off / bSize + 1) * bSize - off)
      let buf ← rsect m x
      appendLoop fuel (wsect m x (memmove buf (off - off / bSize * bSize) n1 p)) din
        (fun k => p (n1 + k)) (off + n1) (n - n1)
    else .error (.assert "fbn < MAXFILE")

def iappend (m : Image) (inum : Nat) (xp : List UInt8) : Except Abort Image := do
  let din ← rinode m inum
  let (m, din, off) ← appendLoop xp.length m din (fun k => xp.getD k 0) din.size xp.length
  winode m inum { din with size := off }

/-- What one call of `read` returns before the end of the file. -/
abbrev Chunk := { c : List UInt8 // 0 < c.length ∧ c.length ≤ bSize }

/-- An argument of mkfs: the name, and the bytes if it can be opened. -/
structure File where
  name : List UInt8
  data : Option (List Chunk)
  nul : 0 ∉ name

def underscore : UInt8 := 95

def File.target (f : File) : List UInt8 :=
  if f.name.headD 0 = underscore then f.name.tail else f.name

/-- The `while` loop of `main` that copies a file. -/
def copy (m : Image) (inum : Nat) : List Chunk → Except Abort Image
  | [] => .ok m
  | buf :: rest => do
    let m ← iappend m inum buf.val
    copy m inum rest

def addFile (m : Image) (f : File) : Except Abort Image :=
  if slash ∈ f.name then .error (.assert "index(argv[i], '/') == 0")
  else
    match f.data with
    | none => .error (.noFile f.name)
    | some chunks => do
      let (m, inum) ← ialloc m tFile
      let m ← iappend m rootIno (direntBytes ⟨inum % 2 ^ 16, strncpy dirSiz f.target⟩)
      copy m inum chunks

def addFiles (m : Image) : List File → Except Abort Image
  | [] => .ok m
  | f :: files => do
    let m ← addFile m f
    addFiles m files

/-- The file after the loop of `main` that writes zeroes. -/
def zeroed : Image :=
  (List.range fsSize).foldl (fun m i => wsect m i fun _ => 0) ⟨0, fun _ _ => 0, 1, nMeta⟩

/-- The super block and the root directory. -/
def makeRoot : Except Abort Image := do
  let (m, rootino) ← ialloc (wsect zeroed 1 (putWords (fun _ => 0) 0 sbWords)) tDir
  if rootino = rootIno then
    let m ← iappend m rootino (direntBytes ⟨rootino, strncpy dirSiz [46]⟩)
    iappend m rootino (direntBytes ⟨rootino, strncpy dirSiz [46, 46]⟩)
  else .error (.assert "rootino == ROOTINO")

def rounded (din : Inode) : Inode := { din with size := (din.size / bSize + 1) * bSize }

def main (files : List File) : Except Abort Image := do
  let m ← makeRoot
  let m ← addFiles m files
  let din ← rinode m rootIno
  let m ← winode m rootIno (rounded din)
  balloc m m.freeblock

end Xv6.Mkfs
