import Xv6.Fs.Inode
import Xv6.Lib.Tracks

namespace Xv6.Icache
open Lib Fs Function
set_option autoImplicit true

abbrev nInode : Nat := 50

abbrev Slot := Fin nInode

/-- What a process in fs.c does next, with an entry and its variable. -/
inductive Pc where
  | idle
  | ilock (n : Nat) (i : Slot)
  | ilockRead (n : Nat) (i : Slot)
  | ialloc (dev type inum n : Nat)
  | iget (dev inum n : Nat)
  | iput (n : Nat) (i : Slot)
  | iputTest (n : Nat) (i : Slot)
  | iputCount (n : Nat) (i : Slot)
  | itrunc (n : Nat) (i : Slot)
  | itruncUpdate (n : Nat) (i : Slot)
  | iputType (n : Nat) (i : Slot)
  | iputUpdate (n : Nat) (i : Slot)
  | iputInvalid (n : Nat) (i : Slot)
  | iputUnlock (n : Nat) (i : Slot)
  | iputDec (n : Nat) (i : Slot)
  deriving DecidableEq

/-- The entries of `icache.inode`, the inodes on disk, and the pointers of processes. `touched` is a
history: the entries changed since their last `iupdate`. -/
structure St where
  dev : Slot → Nat
  inum : Slot → Nat
  ref : Slot → Nat
  holder : Slot → Option Pid
  valid : Slot → Bool
  ip : Slot → Inode
  disk : Nat → Nat → Inode
  pc : Pid → Pc
  var : Pid × Nat → Option Slot
  touched : Slot → Bool

def boot (disk : Nat → Nat → Inode) : St where
  dev _ := 0
  inum _ := 0
  ref _ := 0
  holder _ := none
  valid _ := false
  ip _ := ⟨0, 0, 0, 0, 0, fun _ => 0⟩
  disk := disk
  pc _ := .idle
  var _ := none
  touched _ := false

namespace St

def goto (s : St) (p : Pid) (x : Pc) : St := { s with pc := update s.pc p x }

def setVar (s : St) (x : Pid × Nat) (o : Option Slot) : St :=
  { s with var := update s.var x o }

def setRef (s : St) (i : Slot) (m : Nat) : St := { s with ref := update s.ref i m }

def setHolder (s : St) (i : Slot) (o : Option Pid) : St :=
  { s with holder := update s.holder i o }

def setValid (s : St) (i : Slot) (b : Bool) : St :=
  { s with valid := update s.valid i b }

def setIp (s : St) (i : Slot) (v : Inode) : St :=
  { s with ip := update s.ip i v, touched := update s.touched i true }

def setDisk (s : St) (dev inum : Nat) (v : Inode) : St :=
  { s with disk := update s.disk dev (update (s.disk dev) inum v) }

def acquiresleep (s : St) (p : Pid) (i : Slot) : Except Fault St :=
  if s.holder i = none then .ok (s.setHolder i (some p)) else .error .blocked

def iupdate (s : St) (i : Slot) : St :=
  { s.setDisk (s.dev i) (s.inum i) (s.ip i) with touched := update s.touched i false }

/-- The part of `ilock` that reads the inode from disk. -/
def read (s : St) (i : Slot) : Except Fault St :=
  if s.valid i then .ok s
  else if (s.disk (s.dev i) (s.inum i)).type = 0 then .error (.panic "ilock: no type")
  else .ok { s.setValid i true with ip := update s.ip i (s.disk (s.dev i) (s.inum i)) }

/-- The entry for an inode that the loop of `iget` finds. -/
def cached (s : St) (dev inum : Nat) : Option Slot :=
  (List.finRange nInode).find? fun i => 0 < s.ref i ∧ s.dev i = dev ∧ s.inum i = inum

def empty (s : St) : Option Slot := (List.finRange nInode).find? fun i => s.ref i = 0

def recycle (s : St) (i : Slot) (dev inum : Nat) : St :=
  { s with
    dev := update s.dev i dev
    inum := update s.inum i inum
    ref := update s.ref i 1
    valid := update s.valid i false }

/-- `iget`, with the pointer left in a variable. -/
def iget (s : St) (x : Pid × Nat) (dev inum : Nat) : Except Fault St :=
  match s.cached dev inum with
  | some i => .ok ((s.setRef i (s.ref i + 1)).setVar x (some i))
  | none =>
    match s.empty with
    | some i => .ok ((s.recycle i dev inum).setVar x (some i))
    | none => .error (.panic "iget: no inodes")

end St

def procStep (ninodes : Nat) (s : St) (p : Pid) : Except Fault St :=
  match s.pc p with
  | .idle => .error .blocked
  | .ilock n i => do
    let s ← s.acquiresleep p i
    .ok (s.goto p (.ilockRead n i))
  | .ilockRead _ i => do
    let s ← s.read i
    .ok (s.goto p .idle)
  | .ialloc dev type inum n =>
    if inum < ninodes then
      if (s.disk dev inum).type = 0 then
        .ok ((s.setDisk dev inum ⟨type, 0, 0, 0, 0, fun _ => 0⟩).goto p (.iget dev inum n))
      else .ok (s.goto p (.ialloc dev type (inum + 1) n))
    else .error (.panic "ialloc: no inodes")
  | .iget dev inum n => do
    let s ← s.iget (p, n) dev inum
    .ok (s.goto p .idle)
  | .iput n i => do
    let s ← s.acquiresleep p i
    .ok (s.goto p (.iputTest n i))
  | .iputTest n i =>
    if s.valid i ∧ (s.ip i).nlink = 0 then .ok (s.goto p (.iputCount n i))
    else .ok (s.goto p (.iputUnlock n i))
  | .iputCount n i =>
    if s.ref i = 1 then .ok (s.goto p (.itrunc n i)) else .ok (s.goto p (.iputUnlock n i))
  | .itrunc n i => .ok ((s.setIp i (s.ip i).truncated).goto p (.itruncUpdate n i))
  | .itruncUpdate n i => .ok ((s.iupdate i).goto p (.iputType n i))
  | .iputType n i => .ok ((s.setIp i { s.ip i with type := 0 }).goto p (.iputUpdate n i))
  | .iputUpdate n i => .ok ((s.iupdate i).goto p (.iputInvalid n i))
  | .iputInvalid n i => .ok ((s.setValid i false).goto p (.iputUnlock n i))
  | .iputUnlock n i => .ok ((s.setHolder i none).goto p (.iputDec n i))
  | .iputDec n i => .ok (((s.setRef i (s.ref i - 1)).setVar (p, n) none).goto p .idle)

/-- What a process asks of the cache; `give` hands a pointer over. -/
inductive Call where
  | iget (dev inum n : Nat)
  | idup (n m : Nat)
  | ilock (n : Nat)
  | iunlock (n : Nat)
  | iput (n : Nat)
  | ialloc (dev type n : Nat)
  | iupdate (n : Nat)
  | modify (n : Nat) (v : Inode)
  | give (n : Nat) (q : Pid) (m : Nat)

inductive Event where
  | call (p : Pid) (c : Call)
  | step (p : Pid)

/-- The entry that a variable of process `p` points to. -/
def St.arg (s : St) (p : Pid) (n : Nat) : Except Fault Slot :=
  match s.var (p, n) with
  | some i => .ok i
  | none => .error .blocked

def callStep (s : St) (p : Pid) (c : Call) : Except Fault St :=
  if s.pc p = .idle then
    match c with
    | .iget dev inum n => s.iget (p, n) dev inum
    | .ialloc dev type n => .ok (s.goto p (.ialloc dev type 1 n))
    | .idup n m => do
      let i ← s.arg p n
      .ok ((s.setRef i (s.ref i + 1)).setVar (p, m) (some i))
    | .ilock n => do
      let i ← s.arg p n
      if s.ref i < 1 then .error (.panic "ilock") else .ok (s.goto p (.ilock n i))
    | .iunlock n => do
      let i ← s.arg p n
      if s.holder i ≠ some p ∨ s.ref i < 1 then .error (.panic "iunlock")
      else .ok (s.setHolder i none)
    | .iput n => do
      let i ← s.arg p n
      .ok (s.goto p (.iput n i))
    | .iupdate n => do
      let i ← s.arg p n
      .ok (s.iupdate i)
    | .modify n v => do
      let i ← s.arg p n
      .ok (s.setIp i v)
    | .give n q m => do
      let i ← s.arg p n
      .ok ((s.setVar (p, n) none).setVar (q, m) (some i))
  else .error .blocked

def step (ninodes : Nat) (s : St) : Event → Except Fault St
  | .call p c => callStep s p c
  | .step p => procStep ninodes s p

/-- A pointer is not written over, and only the holder of the lock changes an inode, not its type,
updates it before it unlocks it, and keeps the pointer so long. -/
def legal (s : St) : Event → Bool
  | .call p (.iget _ _ n) | .call p (.ialloc _ _ n) => s.var (p, n) = none
  | .call p (.idup _ m) => s.var (p, m) = none
  | .call p (.iunlock n) => (s.var (p, n)).all fun i => !s.touched i
  | .call p (.iupdate n) => (s.var (p, n)).all fun i => s.holder i = some p
  | .call p (.modify n v) =>
    (s.var (p, n)).all fun i => s.holder i = some p ∧ v.type = (s.ip i).type
  | .call p (.give n q m) =>
    s.var (q, m) = none ∧ s.pc q = .idle ∧ (s.var (p, n)).all fun i => s.holder i ≠ some p
  | _ => true

end Xv6.Icache
