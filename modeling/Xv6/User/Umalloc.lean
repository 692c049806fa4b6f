import Mathlib.Algebra.Group.Nat.Defs
import Mathlib.Logic.Function.Basic

namespace Xv6.User
set_option autoImplicit true

/-- The words of headers, `&base` and `freep`. Then a history: where the memory ends, the regions
that `sbrk` returned with their sizes in headers, and the pointers not freed, with the sizes asked
for. -/
structure Heap where
  base : Nat
  ptr : Nat → Nat
  size : Nat → Nat
  freep : Nat
  brk : Nat
  regions : List (Nat × Nat)
  live : List (Nat × Nat)

def Heap.start (base brk : Nat) : Heap where
  base := base
  ptr _ := 0
  size _ := 0
  freep := 0
  brk := brk
  regions := []
  live := []

/-- A loop visits a header at most twice, and 4 GiB have 2^29 headers. -/
def loopFuel : Nat := 2 ^ 30 + 2

def units (nbytes : Nat) : Nat :=
  (nbytes + 8 - 1) % 2 ^ 32 / 8 + 1

def coreUnits (nu : Nat) : Nat :=
  if nu < 4096 then 4096 else nu

namespace Heap

def setPtr (h : Heap) (p x : Nat) : Heap := { h with ptr := Function.update h.ptr p x }

def setSize (h : Heap) (p n : Nat) : Heap := { h with size := Function.update h.size p n }

def freeLoop (h : Heap) (bp : Nat) : Nat → Nat → Except Unit Nat
  | 0, _ => .error ()
  | fuel + 1, p =>
    if bp > p ∧ bp < h.ptr p then .ok p
    else if p ≥ h.ptr p ∧ (bp > p ∨ bp < h.ptr p) then .ok p
    else freeLoop h bp fuel (h.ptr p)

def joinUpper (h : Heap) (bp p : Nat) : Heap :=
  if bp + 8 * h.size bp = h.ptr p then
    let h := h.setSize bp (h.size bp + h.size (h.ptr p))
    h.setPtr bp (h.ptr (h.ptr p))
  else h.setPtr bp (h.ptr p)

def joinLower (h : Heap) (bp p : Nat) : Heap :=
  if p + 8 * h.size p = bp then
    let h := h.setSize p (h.size p + h.size bp)
    h.setPtr p (h.ptr bp)
  else h.setPtr p bp

def free (h : Heap) (ap : Nat) : Except Unit Heap := do
  let bp := ap - 8
  let p ← h.freeLoop bp loopFuel h.freep
  .ok { (h.joinUpper bp p).joinLower bp p with freep := p }

def morecore (h : Heap) (nu : Nat) : Option Nat → Except Unit (Option Heap)
  | none => .ok none
  | some p => do
    let h := { h.setSize p (coreUnits nu) with
      brk := p + 8 * coreUnits nu
      regions := h.regions ++ [(p, coreUnits nu)] }
    let h ← h.free (p + 8)
    .ok (some h)

def take (h : Heap) (nunits prevp p : Nat) : Heap × Nat :=
  if h.size p = nunits then ({ h.setPtr prevp (h.ptr p) with freep := prevp }, p + 8)
  else
    let h := h.setSize p (h.size p - nunits)
    let q := p + 8 * h.size p
    ({ h.setSize q nunits with freep := prevp }, q + 8)

/-- The loop of `malloc`, with what the calls of `sbrk` return. -/
def mallocLoop (nunits : Nat) : Nat → Heap → List (Option Nat) → Nat → Nat →
    Except Unit (Heap × Nat)
  | 0, _, _, _, _ => .error ()
  | fuel + 1, h, sbrk, prevp, p =>
    if nunits ≤ h.size p then .ok (h.take nunits prevp p)
    else if p = h.freep then
      match sbrk with
      | [] => .error ()
      | a :: sbrk => do
        match ← h.morecore nunits a with
        | none => .ok (h, 0)
        | some h => mallocLoop nunits fuel h sbrk h.freep (h.ptr h.freep)
    else mallocLoop nunits fuel h sbrk p (h.ptr p)

def init (h : Heap) : Heap :=
  { (h.setPtr h.base h.base).setSize h.base 0 with freep := h.base }

def malloc (h : Heap) (nbytes : Nat) (sbrk : List (Option Nat)) : Except Unit (Heap × Nat) :=
  let h := if h.freep = 0 then h.init else h
  mallocLoop (units nbytes) loopFuel h sbrk h.freep (h.ptr h.freep)

end Heap

/-- The program calls `malloc` or `free`, or writes into its memory. -/
inductive HeapEvent where
  | malloc (nbytes : Nat) (sbrk : List (Option Nat))
  | free (ap : Nat)
  | write (a ptr size : Nat)

def Heap.step (h : Heap) : HeapEvent → Except Unit Heap
  | .malloc nbytes sbrk => do
    let (h, p) ← h.malloc nbytes sbrk
    .ok (if p = 0 then h else { h with live := h.live ++ [(p, nbytes)] })
  | .free ap => do
    let h ← h.free ap
    .ok { h with live := h.live.eraseP fun x => x.1 = ap }
  | .write a ptr size => .ok ((h.setPtr a ptr).setSize a size)

/-- Sizes are at most 2^28, `sbrk` fails or returns aligned memory above, pointers are freed once,
and the program writes into its blocks only. -/
def Heap.legal (h : Heap) : HeapEvent → Bool
  | .malloc nbytes sbrk =>
    nbytes ≤ 2 ^ 28 && match sbrk with
      | [] => false
      | none :: _ => true
      | some a :: _ => a % 8 = 0 ∧ h.brk ≤ a ∧ a + 8 * coreUnits (units nbytes) ≤ 2 ^ 32
  | .free ap => h.live.any fun x => x.1 = ap
  | .write a _ _ => h.live.any fun x => a % 8 = 0 ∧ x.1 ≤ a ∧ a + 8 ≤ x.1 + 8 * (units x.2 - 1)

end Xv6.User
