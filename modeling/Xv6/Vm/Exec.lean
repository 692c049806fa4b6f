import Xv6.Lib.Memory
import Xv6.Vm.Growproc

namespace Xv6.Vm
open Lib
set_option autoImplicit true

abbrev maxArg : Nat := 32
abbrev elfMagic : Nat := 0x464C457F
abbrev elfProgLoad : Nat := 1

structure File where
  bytes : List UInt8
  size_lt : bytes.length < 2 ^ 32

/-- `readi`, as the bytes that it copies and what it returns. -/
def readi (ip : File) (off n : Nat) : List UInt8 × Int :=
  if ip.bytes.length < off ∨ (off + n) % 2 ^ 32 < off then ([], -1)
  else
    let bs := (ip.bytes.drop off).take n
    (bs, bs.length)

def field (bs : List UInt8) (off w : Nat) : Nat := leNat ((bs.drop off).take w)

structure Elfhdr where
  magic : Nat
  entry : Nat
  phoff : Nat
  phnum : Nat

def elfhdr (bs : List UInt8) : Elfhdr := ⟨field bs 0 4, field bs 24 4, field bs 28 4, field bs 44 2⟩

structure Proghdr where
  type : Nat
  off : Nat
  vaddr : Nat
  filesz : Nat
  memsz : Nat

def proghdr (bs : List UInt8) : Proghdr :=
  ⟨field bs 0 4, field bs 4 4, field bs 8 4, field bs 16 4, field bs 20 4⟩

def Kmem.write (k : Kmem) (p o : Nat) (bs : List UInt8) : Kmem :=
  { k with data := Function.update k.data p (overlay (k.data p) o bs) }

/-- The loop of `loaduvm`. An entry without `PTE_P` is 0. -/
def loadLoop (ip : File) (d : Pgdir) (addr offset sz : Nat) : Nat → Kmem → Nat → Except Fault (Kmem × Int)
  | 0, _, _ => .error .diverged
  | fuel + 1, k, i =>
    if sz ≤ i then .ok (k, 0)
    else
      let a := (addr + i) % 2 ^ 32
      if (d.pde (pdx a)).isNone then .error (.panic "loaduvm: address should exist")
      else
        let pa := ((d.pte a).map Pte.ppn).getD 0
        let n := if sz - i < pgSize then sz - i else pgSize
        let (bs, r) := readi ip ((offset + i) % 2 ^ 32) n
        let k := k.write pa 0 bs
        if r ≠ n then .ok (k, -1)
        else loadLoop ip d addr offset sz fuel k (nextPage i)

def loaduvm (k : Kmem) (d : Pgdir) (addr : Nat) (ip : File) (offset sz : Nat) : Except Fault (Kmem × Int) :=
  if addr % pgSize ≠ 0 then .error (.panic "loaduvm: addr must be page aligned")
  else loadLoop ip d addr offset sz (nPages + 1) k 0

def outLoop (d : Pgdir) : Nat → Kmem → Nat → List UInt8 → Except Fault (Kmem × Int)
  | 0, _, _, _ => .error .diverged
  | fuel + 1, k, va, buf =>
    if buf.length = 0 then .ok (k, 0)
    else do
      let va₀ := pgRoundDown va
      let pa ← uva2ka d va₀
      match pa with
      | none => .ok (k, -1)
      | some p =>
        let n := min (pgSize - (va - va₀)) buf.length
        outLoop d fuel (k.write p (va - va₀) (buf.take n)) (nextPage va₀) (buf.drop n)

def copyout (k : Kmem) (d : Pgdir) (va : Nat) (buf : List UInt8) : Except Fault (Kmem × Int) :=
  outLoop d (buf.length + 1) k va buf

/-- The loop of `exec` over the headers; the size, unless it is `goto bad`. -/
def loadSegments (L : Image) (ip : File) :
    Nat → Kmem → Pgdir → Nat → Nat → Except Fault (Kmem × Pgdir × Option Nat)
  | 0, k, d, sz, _ => .ok (k, d, some sz)
  | n + 1, k, d, sz, off =>
    let (bs, r) := readi ip off 32
    let ph := proghdr bs
    if r ≠ 32 then .ok (k, d, none)
    else if ph.type ≠ elfProgLoad then loadSegments L ip n k d sz ((off + 32) % 2 ^ 32)
    else if ph.memsz < ph.filesz then .ok (k, d, none)
    else if (ph.vaddr + ph.memsz) % 2 ^ 32 < ph.vaddr then .ok (k, d, none)
    else do
      let (k, d, sz) ← allocuvm L k d sz ((ph.vaddr + ph.memsz) % 2 ^ 32)
      if sz = 0 then .ok (k, d, none)
      else if ph.vaddr % pgSize ≠ 0 then .ok (k, d, none)
      else do
        let (k, r) ← loaduvm k d ph.vaddr ip ph.off ph.filesz
        if r < 0 then .ok (k, d, none)
        else loadSegments L ip n k d sz ((off + 32) % 2 ^ 32)

def subWord (a b : Nat) : Nat := (a + (2 ^ 32 - b % 2 ^ 32)) % 2 ^ 32

/-- The loop of `exec` over the arguments: stack pointer and addresses, unless `goto bad`. -/
def pushArgs (d : Pgdir) : List (List UInt8) → Kmem → Nat → List Nat →
    Except Fault (Kmem × Option (Nat × List Nat))
  | [], k, sp, ptrs => .ok (k, some (sp, ptrs))
  | s :: argv, k, sp, ptrs =>
    if maxArg ≤ ptrs.length then .ok (k, none)
    else do
      let sp := subWord sp (s.length + 1) / 4 * 4
      let (k, r) ← copyout k d sp (s ++ [0])
      if r < 0 then .ok (k, none) else pushArgs d argv k sp (ptrs ++ [sp])

def ustack (sp : Nat) (ptrs : List Nat) : List Nat :=
  [0xffffffff, ptrs.length, subWord sp ((ptrs.length + 1) * 4)] ++ ptrs ++ [0]

/-- `exec` pushes arguments and `ustack`; the stack pointer, unless `goto bad`. -/
def pushStack (k : Kmem) (d : Pgdir) (argv : List (List UInt8)) (sz : Nat) :
    Except Fault (Kmem × Option Nat) := do
  let (k, o) ← pushArgs d argv k sz []
  match o with
  | none => .ok (k, none)
  | some (sp, ptrs) => do
    let top := subWord sp ((3 + ptrs.length + 1) * 4)
    let (k, r) ← copyout k d top ((ustack sp ptrs).flatMap (leBytes 4))
    if r < 0 then .ok (k, none) else .ok (k, some top)

/-- `exec` from `setupkvm` to the commit; size and stack pointer, unless `goto bad`. -/
def buildImage (L : Image) (ip : File) (elf : Elfhdr) (argv : List (List UInt8)) (k : Kmem) (d : Pgdir) :
    Except Fault (Kmem × Pgdir × Option (Nat × Nat)) := do
  let (k, d, o) ← loadSegments L ip elf.phnum k d 0 elf.phoff
  match o with
  | none => .ok (k, d, none)
  | some sz => do
    let sz := pgRoundUp sz
    let (k, d, sz) ← allocuvm L k d sz ((sz + 2 * pgSize) % 2 ^ 32)
    if sz = 0 then .ok (k, d, none)
    else do
      let d ← clearpteu d (subWord sz (2 * pgSize))
      let (k, o) ← pushStack k d argv sz
      .ok (k, d, o.map fun sp => (sz, sp))

/-- `struct proc` with the parts of its trap frame that `exec` sets. -/
structure Task where
  proc : Proc
  eip : Nat
  esp : Nat
  name : List UInt8

/-- The loop of `exec` over the path: what follows the last `/`. -/
def lastElem : List UInt8 → List UInt8 → List UInt8
  | last, [] => last
  | last, c :: s => lastElem (if c = 47 then s else last) s

/-- `exec`, where `file` is what `namei` finds. -/
def exec (L : Image) (k : Kmem) (t : Task) (path : List UInt8) (file : Option File)
    (argv : List (List UInt8)) : Except Fault (Kmem × Task × Int) :=
  match file with
  | none => .ok (k, t, -1)
  | some ip =>
    let (bs, r) := readi ip 0 52
    let elf := elfhdr bs
    if r ≠ 52 then .ok (k, t, -1)
    else if elf.magic ≠ elfMagic then .ok (k, t, -1)
    else do
      let (k, o) ← setupkvm L k
      match o with
      | none => .ok (k, t, -1)
      | some d => do
        let (k, d, o) ← buildImage L ip elf argv k d
        match o with
        | none => do
          let k ← freevm L k d
          .ok (k, t, -1)
        | some (sz, sp) => do
          let k ← freevm L k t.proc.pgdir
          .ok (k, ⟨⟨d, sz⟩, elf.entry, sp, (lastElem path path).take 15⟩, 0)

end Xv6.Vm
