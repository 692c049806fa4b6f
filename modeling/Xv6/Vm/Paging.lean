import Mathlib.Algebra.Group.Nat.Defs
import Mathlib.Data.Fintype.Basic
import Mathlib.Logic.Function.Basic

namespace Xv6.Vm
open Function
set_option autoImplicit true

inductive Fault where
  | panic (msg : String)
  | null
  | diverged
  deriving DecidableEq, Repr

abbrev pgSize : Nat := 4096
abbrev kernBase : Nat := 0x80000000
abbrev extMem : Nat := 0x100000
abbrev physTop : Nat := 0xE000000
abbrev devSpace : Nat := 0xFE000000

abbrev nPages : Nat := 2 ^ 20

abbrev nUser : Nat := 2 ^ 19

def pdx (va : Nat) : Fin 1024 := ⟨va / 2 ^ 22 % 1024, Nat.mod_lt _ (by decide)⟩
def ptx (va : Nat) : Fin 1024 := ⟨va / 2 ^ 12 % 1024, Nat.mod_lt _ (by decide)⟩

def pgAddr (d t o : Nat) : Nat := (d * 2 ^ 22 + t * 2 ^ 12 + o) % 2 ^ 32
def pgRoundUp (a : Nat) : Nat := (a + (pgSize - 1)) % 2 ^ 32 / pgSize * pgSize
def pgRoundDown (a : Nat) : Nat := a / pgSize * pgSize

/-- `a += PGSIZE`. -/
def nextPage (a : Nat) : Nat := (a + pgSize) % 2 ^ 32

/-- The kernel image: the page of `data`, and the first page not below `end`. -/
structure Image where
  data : Nat
  top : Nat
  text : extMem / pgSize < data
  bss : data < top
  fits : top ≤ physTop / pgSize

/-- The pages that `kinit1` and `kinit2` hand to the allocator. -/
def Image.InRange (L : Image) (p : Nat) : Prop := L.top ≤ p ∧ p < physTop / pgSize

instance (L : Image) (p : Nat) : Decidable (L.InRange p) :=
  inferInstanceAs (Decidable (_ ∧ _))

/-- The allocator and the bytes of the pages; `deny` tells which next calls of `kalloc` fail
anyway. -/
structure Kmem where
  freelist : List Nat
  deny : List Bool
  data : Nat → Nat → UInt8

def Kmem.fill (k : Kmem) (p : Nat) (b : UInt8) : Kmem :=
  { k with data := update k.data p fun _ => b }

def kalloc (k : Kmem) : Kmem × Option Nat :=
  if k.deny.headD false then ({ k with deny := k.deny.tail }, none)
  else
    match k.freelist with
    | [] => ({ k with deny := k.deny.tail }, none)
    | p :: ps => ({ k with freelist := ps, deny := k.deny.tail }, some p)

def kfree (L : Image) (k : Kmem) (p : Nat) : Except Fault Kmem :=
  if p < L.top ∨ physTop / pgSize ≤ p then .error (.panic "kfree")
  else
    let k := k.fill p 1
    .ok { k with freelist := p :: k.freelist }

structure Perm where
  w : Bool
  u : Bool
  deriving DecidableEq, Repr

/-- A page table entry with `PTE_P`. -/
structure Pte where
  ppn : Nat
  perm : Perm
  deriving DecidableEq, Repr

/-- A page table, and the page it is in. -/
structure Table where
  page : Nat
  pte : Fin 1024 → Option Pte

/-- A page directory, the page it is in, and its page tables. -/
structure Pgdir where
  page : Nat
  pde : Fin 1024 → Option Table

/-- The entry that `walkpgdir` finds. -/
def Pgdir.pte (d : Pgdir) (va : Nat) : Option Pte :=
  (d.pde (pdx va)).bind fun t => t.pte (ptx va)

def Pgdir.setPte (d : Pgdir) (va : Nat) (e : Option Pte) : Pgdir :=
  match d.pde (pdx va) with
  | none => d
  | some t => { d with
      pde := update d.pde (pdx va) (some { t with pte := update t.pte (ptx va) e }) }

/-- `walkpgdir` with `alloc`; whether there is an entry. -/
def walkAlloc (k : Kmem) (d : Pgdir) (va : Nat) : Kmem × Pgdir × Bool :=
  match d.pde (pdx va) with
  | some _ => (k, d, true)
  | none =>
    match kalloc k with
    | (k, none) => (k, d, false)
    | (k, some p) => (k, { d with pde := update d.pde (pdx va) (some ⟨p, fun _ => none⟩) }, true)

def mapLoop : Nat → Kmem → Pgdir → Nat → Nat → Nat → Perm → Except Fault (Kmem × Pgdir × Int)
  | 0, _, _, _, _, _, _ => .error .diverged
  | fuel + 1, k, d, a, last, ppn, perm =>
    match walkAlloc k d a with
    | (k, d, false) => .ok (k, d, -1)
    | (k, d, true) =>
      if (d.pte a).isSome then .error (.panic "remap")
      else
        let d := d.setPte a (some ⟨ppn, perm⟩)
        if a = last then .ok (k, d, 0)
        else mapLoop fuel k d (nextPage a) last (ppn + 1) perm

def mappages (k : Kmem) (d : Pgdir) (va size ppn : Nat) (perm : Perm) :
    Except Fault (Kmem × Pgdir × Int) :=
  mapLoop nPages k d (pgRoundDown va) (pgRoundDown ((va + size + (2 ^ 32 - 1)) % 2 ^ 32)) ppn perm

def deallocLoop (L : Image) : Nat → Kmem → Pgdir → Nat → Nat → Except Fault (Kmem × Pgdir)
  | 0, _, _, _, _ => .error .diverged
  | fuel + 1, k, d, a, oldsz =>
    if oldsz ≤ a then .ok (k, d)
    else if (d.pde (pdx a)).isNone then
      deallocLoop L fuel k d (nextPage ((pgAddr ((pdx a).val + 1) 0 0 + (2 ^ 32 - pgSize)) % 2 ^ 32)) oldsz
    else
      match d.pte a with
      | none => deallocLoop L fuel k d (nextPage a) oldsz
      | some e =>
        if e.ppn = 0 then .error (.panic "kfree")
        else do
          let k ← kfree L k e.ppn
          deallocLoop L fuel k (d.setPte a none) (nextPage a) oldsz

def deallocuvm (L : Image) (k : Kmem) (d : Pgdir) (oldsz newsz : Nat) :
    Except Fault (Kmem × Pgdir × Nat) :=
  if oldsz ≤ newsz then .ok (k, d, oldsz)
  else do
    let (k, d) ← deallocLoop L (nPages + 1) k d (pgRoundUp newsz) oldsz
    .ok (k, d, newsz)

/-- The loop of `allocuvm`; the size that it returns. -/
def allocLoop (L : Image) : Nat → Kmem → Pgdir → Nat → Nat → Nat → Except Fault (Kmem × Pgdir × Nat)
  | 0, _, _, _, _, _ => .error .diverged
  | fuel + 1, k, d, a, oldsz, newsz =>
    if newsz ≤ a then .ok (k, d, newsz)
    else
      match kalloc k with
      | (k, none) => do
        let (k, d, _) ← deallocuvm L k d newsz oldsz
        .ok (k, d, 0)
      | (k, some mem) => do
        let (k, d, r) ← mappages (k.fill mem 0) d a pgSize mem ⟨true, true⟩
        if r < 0 then do
          let (k, d, _) ← deallocuvm L k d newsz oldsz
          let k ← kfree L k mem
          .ok (k, d, 0)
        else allocLoop L fuel k d (nextPage a) oldsz newsz

def allocuvm (L : Image) (k : Kmem) (d : Pgdir) (oldsz newsz : Nat) :
    Except Fault (Kmem × Pgdir × Nat) :=
  if kernBase ≤ newsz then .ok (k, d, 0)
  else if newsz < oldsz then .ok (k, d, oldsz)
  else allocLoop L (nPages + 1) k d (pgRoundUp oldsz) oldsz newsz

def freeTables (L : Image) (d : Pgdir) : List (Fin 1024) → Kmem → Except Fault Kmem
  | [], k => .ok k
  | i :: is, k =>
    match d.pde i with
    | none => freeTables L d is k
    | some t => do
      let k ← kfree L k t.page
      freeTables L d is k

def freevm (L : Image) (k : Kmem) (d : Pgdir) : Except Fault Kmem := do
  let (k, d, _) ← deallocuvm L k d kernBase 0
  let k ← freeTables L d (List.finRange 1024) k
  kfree L k d.page

structure Kmap where
  virt : Nat
  physStart : Nat
  physEnd : Nat
  perm : Perm

def kmap (L : Image) : List Kmap :=
  [⟨kernBase, 0, extMem, ⟨true, false⟩⟩,
    ⟨kernBase + extMem, extMem, L.data * pgSize, ⟨false, false⟩⟩,
    ⟨kernBase + L.data * pgSize, L.data * pgSize, physTop, ⟨true, false⟩⟩,
    ⟨devSpace, devSpace, 0, ⟨true, false⟩⟩]

def mapKernel (L : Image) : List Kmap → Kmem → Pgdir → Except Fault (Kmem × Option Pgdir)
  | [], k, d => .ok (k, some d)
  | m :: ms, k, d => do
    let (k, d, r) ← mappages k d m.virt ((m.physEnd + (2 ^ 32 - m.physStart)) % 2 ^ 32)
      (m.physStart / pgSize) m.perm
    if r < 0 then do
      let k ← freevm L k d
      .ok (k, none)
    else mapKernel L ms k d

def setupkvm (L : Image) (k : Kmem) : Except Fault (Kmem × Option Pgdir) :=
  match kalloc k with
  | (k, none) => .ok (k, none)
  | (k, some p) => mapKernel L (kmap L) k ⟨p, fun _ => none⟩

def clearpteu (d : Pgdir) (va : Nat) : Except Fault Pgdir :=
  if (d.pde (pdx va)).isNone then .error (.panic "clearpteu")
  else .ok (d.setPte va ((d.pte va).map fun e => { e with perm := { e.perm with u := false } }))

def Kmem.copyPage (k : Kmem) (dst src : Nat) : Kmem :=
  { k with data := update k.data dst (k.data src) }

def copyLoop (L : Image) (d₀ : Pgdir) : Nat → Kmem → Pgdir → Nat → Nat → Except Fault (Kmem × Option Pgdir)
  | 0, _, _, _, _ => .error .diverged
  | fuel + 1, k, d, i, sz =>
    if sz ≤ i then .ok (k, some d)
    else if (d₀.pde (pdx i)).isNone then .error (.panic "copyuvm: pte should exist")
    else
      match d₀.pte i with
      | none => .error (.panic "copyuvm: page not present")
      | some e =>
        match kalloc k with
        | (k, none) => do
          let k ← freevm L k d
          .ok (k, none)
        | (k, some mem) => do
          let (k, d, r) ← mappages (k.copyPage mem e.ppn) d i pgSize mem e.perm
          if r < 0 then do
            let k ← kfree L k mem
            let k ← freevm L k d
            .ok (k, none)
          else copyLoop L d₀ fuel k d (nextPage i) sz

def copyuvm (L : Image) (k : Kmem) (d₀ : Pgdir) (sz : Nat) : Except Fault (Kmem × Option Pgdir) := do
  let (k, r) ← setupkvm L k
  match r with
  | none => .ok (k, none)
  | some d => copyLoop L d₀ (nPages + 1) k d 0 sz

/-- `uva2ka`, as the page; nothing checks that there is an entry. -/
def uva2ka (d : Pgdir) (va : Nat) : Except Fault (Option Nat) :=
  if (d.pde (pdx va)).isNone then .error .null
  else
    match d.pte va with
    | none => .ok none
    | some e => .ok (if e.perm.u then some e.ppn else none)

end Xv6.Vm
