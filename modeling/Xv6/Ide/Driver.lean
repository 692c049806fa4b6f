import Xv6.Lib.Exec
import Xv6.Param
import Mathlib.Logic.Function.Basic

namespace Xv6.Ide
open Lib Function
set_option autoImplicit true

/-- The fields of `struct buf` that a driver uses, `flags` as two bits. -/
structure Buf where
  valid : Bool
  dirty : Bool
  dev : UInt32
  blockno : UInt32
  data : Block

/-- `(b->flags & (B_VALID|B_DIRTY)) == B_VALID`. -/
def Buf.synced (b : Buf) : Bool :=
  b.valid && !b.dirty

namespace Memide

/-- `iderw` of memide.c, with the buffer locked or not. -/
def iderw (disksize : Nat) (holding : Bool) (memdisk : Nat → Block) (b : Buf) :
    Except Fault ((Nat → Block) × Buf) :=
  if !holding then .error (.panic "iderw: buf not locked")
  else if b.synced then .error (.panic "iderw: nothing to do")
  else if b.dev ≠ 1 then .error (.panic "iderw: request not for disk 1")
  else if disksize ≤ b.blockno.toNat then .error (.panic "iderw: block out of range")
  else if b.dirty then
    .ok (update memdisk b.blockno.toNat b.data, { b with dirty := false, valid := true })
  else .ok (memdisk, { b with data := memdisk b.blockno.toNat, valid := true })

def serve (disksize : Nat) (memdisk : Nat → Block) : List Buf → Except Fault ((Nat → Block) × List Buf)
  | [] => .ok (memdisk, [])
  | b :: bs => do
    let (memdisk, b) ← iderw disksize true memdisk b
    let (memdisk, bs) ← serve disksize memdisk bs
    .ok (memdisk, b :: bs)

end Memide

/-- What is in ports 0x1f3 to 0x1f6 of the controller. -/
structure Regs where
  low : UInt8
  mid : UInt8
  high : UInt8
  head : UInt8

def Regs.sector (r : Regs) : Nat :=
  r.low.toNat + 2 ^ 8 * r.mid.toNat + 2 ^ 16 * r.high.toNat + 2 ^ 24 * (r.head &&& 0x0f).toNat

def Regs.drive (r : Regs) : Bool :=
  r.head &&& 0x10 ≠ 0

/-- A command for one sector, with the data if it is a write. -/
structure Cmd where
  drive : Bool
  sector : Nat
  data : Option Block

/-- The controller: its command, the data to read, and the interrupts not taken. -/
structure Hw where
  busy : Option Cmd
  data : Block
  irqs : Nat
  disk : Bool → Nat → Block

def Hw.complete (hw : Hw) (c : Cmd) : Hw :=
  match c.data with
  | some d =>
    { hw with
      busy := none
      irqs := hw.irqs + 1
      disk := update hw.disk c.drive (update (hw.disk c.drive) c.sector d) }
  | none =>
    { hw with busy := none, irqs := hw.irqs + 1, data := hw.disk c.drive c.sector }

abbrev sectorPerBlock : Nat := bSize / 512

/-- The bytes that `idestart` writes to the ports. -/
def regs (b : Buf) : Regs :=
  let sector := b.blockno * UInt32.ofNat sectorPerBlock
  { low := (sector &&& 0xff).toUInt8
    mid := (sector >>> 8 &&& 0xff).toUInt8
    high := (sector >>> 16 &&& 0xff).toUInt8
    head := (0xe0 : UInt8) ||| ((b.dev &&& 1) <<< 4).toUInt8 ||| (sector >>> 24 &&& 0x0f).toUInt8 }

def command (b : Buf) : Cmd where
  drive := (regs b).drive
  sector := (regs b).sector
  data := if b.dirty then some b.data else none

/-- Whoever executes driver code; `pp` of `iderw` is `&idequeue`, or `&y->qnext` if it is `some
y`. -/
inductive Pc where
  | idle
  | acquire (b : Nat)
  | walk (b : Nat) (pp : Option Nat)
  | start (b : Nat)
  | test (b : Nat)
  | asleep (b : Nat)
  | reacquire (b : Nat)
  | release (b : Nat)
  | intrAcquire (spurious : Bool)
  | take (spurious : Bool)
  | read (b : Nat)
  | mark (b : Nat)
  | wake (b : Nat)
  | next
  | intrRelease
  deriving DecidableEq

/-- A call of `iderw` that has returned: its request, its buffer, and what that was then. -/
structure Ret where
  idx : Nat
  buf : Nat
  val : Buf

/-- The driver. From `log` on, a history: the requests in the order of the queue, the calls of
`idestart`, the requests completed, the last one of each process, and the calls that have
returned. -/
structure St where
  havedisk1 : Bool
  buf : Nat → Buf
  qnext : Nat → Option Nat
  holder : Nat → Option Pid
  idelock : Option Pid
  idequeue : Option Nat
  pc : Pid → Pc
  hw : Hw
  log : List (Nat × Buf)
  starts : List Nat
  dones : List Nat
  mine : Pid → Nat
  returns : List Ret

def boot (havedisk1 : Bool) (disk : Bool → Nat → Block) : St where
  havedisk1 := havedisk1
  buf _ := ⟨false, false, 0, 0, fun _ => 0⟩
  qnext _ := none
  holder _ := none
  idelock := none
  idequeue := none
  pc _ := .idle
  hw := ⟨none, fun _ => 0, 0, disk⟩
  log := []
  starts := []
  dones := []
  mine _ := 0
  returns := []

/-- A process locks, changes or unlocks a buffer, calls `iderw`, or is killed; the controller
completes; a CPU takes an interrupt; or the driver goes on. -/
inductive Event where
  | lock (p : Pid) (b : Nat)
  | modify (p : Pid) (b : Nat) (v : Buf)
  | unlock (p : Pid) (b : Nat)
  | iderw (p : Pid) (b : Nat)
  | kill (p : Pid)
  | disk
  | intr (p : Pid)
  | spurious (p : Pid)
  | go (p : Pid)

namespace St

def goto (s : St) (p : Pid) (x : Pc) : St := { s with pc := update s.pc p x }

def setBuf (s : St) (b : Nat) (v : Buf) : St := { s with buf := update s.buf b v }

def deref (s : St) : Option Nat → Option Nat
  | none => s.idequeue
  | some y => s.qnext y

def store (s : St) (b : Nat) : Option Nat → St
  | none => { s with idequeue := some b }
  | some y => { s with qnext := update s.qnext y (some b) }

def record (s : St) (p : Pid) (b : Nat) : St :=
  { s with
    log := s.log ++ [(b, s.buf b)]
    mine := update s.mine p s.log.length }

/-- `b->flags |= B_VALID; b->flags &= ~B_DIRTY`. -/
def finish (s : St) (b : Nat) : St :=
  { s.setBuf b { s.buf b with valid := true, dirty := false } with dones := s.dones ++ [b] }

def returned (s : St) (p : Pid) (b : Nat) : St :=
  { s with returns := s.returns ++ [⟨s.mine p, b, s.buf b⟩] }

def wakeup (s : St) (b : Nat) : St :=
  { s with pc := fun q => if s.pc q = .asleep b then .reacquire b else s.pc q }

def issue (s : St) (b : Nat) : St :=
  { s with hw := { s.hw with busy := some (command (s.buf b)) }, starts := s.starts ++ [b] }

/-- `idestart`, which waits until the controller is not busy. -/
def idestart (s : St) (b : Nat) : Except Fault St :=
  if fsSize ≤ (s.buf b).blockno.toNat then .error (.panic "incorrect blockno")
  else if s.hw.busy.isSome then .error .blocked
  else .ok (s.issue b)

def iderw (s : St) (p : Pid) (b : Nat) : Except Fault St :=
  if s.holder b ≠ some p then .error (.panic "iderw: buf not locked")
  else if (s.buf b).synced then .error (.panic "iderw: nothing to do")
  else if (s.buf b).dev ≠ 0 ∧ s.havedisk1 = false then
    .error (.panic "iderw: ide disk 1 not present")
  else .ok (s.goto p (.acquire b))

def hold (s : St) (p : Pid) (x : Pc) : St :=
  { s with idelock := some p, pc := update s.pc p x }

def acquire (s : St) (p : Pid) (x : Pc) : Except Fault St :=
  if s.idelock = none then .ok (s.hold p x) else .error .blocked

def release (s : St) (p : Pid) (x : Pc) : St :=
  { s with idelock := none, pc := update s.pc p x }

def go (s : St) (p : Pid) : Except Fault St :=
  match s.pc p with
  | .idle => .error .blocked
  | .acquire b => { s with qnext := update s.qnext b none }.acquire p (.walk b none)
  | .walk b pp =>
    match s.deref pp with
    | some y => .ok (s.goto p (.walk b (some y)))
    | none => .ok (((s.store b pp).record p b).goto p (.start b))
  | .start b =>
    if s.idequeue = some b then do
      let s ← s.idestart b
      .ok (s.goto p (.test b))
    else .ok (s.goto p (.test b))
  | .test b =>
    if (s.buf b).synced then .ok (s.goto p (.release b))
    else .ok (s.release p (.asleep b))
  | .asleep _ => .error .blocked
  | .reacquire b => s.acquire p (.test b)
  | .release b => .ok ((s.returned p b).release p .idle)
  | .intrAcquire spurious => s.acquire p (.take spurious)
  | .take _ =>
    match s.idequeue with
    | none => .ok (s.goto p .intrRelease)
    | some b => .ok ({ s with idequeue := s.qnext b }.goto p (.read b))
  | .read b =>
    if (s.buf b).dirty then .ok (s.goto p (.mark b))
    else if s.hw.busy.isSome then .error .blocked
    else .ok ((s.setBuf b { s.buf b with data := s.hw.data }).goto p (.mark b))
  | .mark b => .ok ((s.finish b).goto p (.wake b))
  | .wake b => .ok ((s.wakeup b).goto p .next)
  | .next =>
    match s.idequeue with
    | none => .ok (s.goto p .intrRelease)
    | some b => do
      let s ← s.idestart b
      .ok (s.goto p .intrRelease)
  | .intrRelease => .ok (s.release p .idle)

end St

def step (s : St) : Event → Except Fault St
  | .lock p b =>
    if s.pc p = .idle ∧ s.holder b = none then
      .ok { s with holder := update s.holder b (some p) }
    else .error .blocked
  | .modify p b v =>
    if s.pc p = .idle ∧ s.holder b = some p then .ok (s.setBuf b v) else .error .blocked
  | .unlock p b =>
    if s.pc p = .idle ∧ s.holder b = some p then
      .ok { s with holder := update s.holder b none }
    else .error .blocked
  | .iderw p b => if s.pc p = .idle then s.iderw p b else .error .blocked
  | .kill p =>
    match s.pc p with
    | .asleep b => .ok (s.goto p (.reacquire b))
    | _ => .error .blocked
  | .disk =>
    match s.hw.busy with
    | some c => .ok { s with hw := s.hw.complete c }
    | none => .error .blocked
  | .intr p =>
    if s.pc p = .idle ∧ 0 < s.hw.irqs then
      .ok ({ s with hw := { s.hw with irqs := s.hw.irqs - 1 } }.goto p (.intrAcquire false))
    else .error .blocked
  | .spurious p => if s.pc p = .idle then .ok (s.goto p (.intrAcquire true)) else .error .blocked
  | .go p => s.go p

/-- A spurious interrupt finds the queue empty. -/
def legal (s : St) : Event → Bool
  | .go p => s.pc p ≠ .intrAcquire true ∨ s.idequeue = none
  | _ => true

end Xv6.Ide
