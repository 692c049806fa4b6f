import Xv6.Proc.Table

namespace Xv6.Sched
open Proc Function
set_option autoImplicit true

abbrev Cpu := Nat

/-- A spinlock: `ptable.lock` or another one. -/
inductive LockId where
  | ptable
  | other (a : Nat)
  deriving DecidableEq

/-- Where a timer interrupt may take the CPU away: elsewhere, in `fork` with an incomplete child,
and in `sleep` before its last `acquire`. -/
inductive Point where
  | run
  | forkBody
  | forkReady
  | reacquire (a : Nat)
  deriving DecidableEq

/-- Where the saved context of a process goes on. -/
inductive Ctx where
  | forkret
  | yield (x : Point)
  | sleep (l : LockId)
  | exit
  deriving DecidableEq

/-- The steps of `wakeup`: take the lock, look at slot `j`, release the lock. -/
inductive Wake where
  | lock
  | scan (j : Nat)
  | unlock
  deriving DecidableEq

/-- What a process that a CPU executes does next. -/
inductive Pc where
  | off
  | point (x : Point)
  | unlock (x : Point)
  | yieldLock (x : Point)
  | yieldState (x : Point)
  | sleepLock (ch : Chan) (a : Nat)
  | sleepUnlock (ch : Chan) (a : Nat)
  | sleepChan (ch : Chan) (l : LockId)
  | sleepState (ch : Chan) (l : LockId)
  | sched (k : Ctx)
  | resume (k : Ctx)
  | wake (ch : Chan) (w : Wake) (x : Point)
  | killLock (pid : UInt32)
  | killScan (pid : UInt32)
  | exitLock
  | exitScan
  | waitLock
  | waitScan
  | forkLock
  | forkAlloc
  | forkReady
  deriving DecidableEq

/-- What the scheduler of a CPU does next; `intr` is an interrupt. -/
inductive SPc where
  | loop
  | scan
  | enter (p : Slot)
  | load (p : Slot)
  | mark (p : Slot)
  | switch (p : Slot)
  | away (p : Slot)
  | back (p : Slot)
  | account (p : Slot)
  | clear (p : Slot)
  | unlock
  | intr (ch : Chan) (w : Wake)
  deriving DecidableEq

/-- The spinlocks with their CPUs, `ncli`, `c->proc`, the page directory in `cr3`, the saved
contexts, and `np` in `fork`. -/
structure St where
  t : Ptable
  lock : LockId → Option Cpu
  ncli : Cpu → Nat
  proc : Cpu → Option Slot
  pgdir : Cpu → Option Slot
  spc : Cpu → SPc
  pc : Slot → Pc
  context : Slot → Ctx
  np : Slot → Option Slot

def boot (ticks : UInt32) : St where
  t := userinit ticks
  lock _ := none
  ncli _ := 0
  proc _ := none
  pgdir _ := none
  spc _ := .loop
  pc _ := .off
  context _ := .forkret
  np _ := none

def acquire (c : Cpu) (l : LockId) (s : St) : Except Fault St :=
  if s.lock l = some c then .error (.panic "acquire")
  else if s.lock l = none then
    .ok { s with
      lock := update s.lock l (some c)
      ncli := update s.ncli c (s.ncli c + 1) }
  else .error .blocked

def release (c : Cpu) (l : LockId) (s : St) : Except Fault St :=
  if s.lock l = some c then
    .ok { s with
      lock := update s.lock l none
      ncli := update s.ncli c (s.ncli c - 1) }
  else .error (.panic "release")

def goto (p : Slot) (x : Pc) (s : St) : St :=
  { s with pc := update s.pc p x }

def sgoto (c : Cpu) (x : SPc) (s : St) : St :=
  { s with spc := update s.spc c x }

/-- What a process, an interrupt handler (`wakeup`) or the timer (`yield`) asks for. -/
inductive Req where
  | acquire (a : Nat)
  | release (a : Nat)
  | sleep (ch : Chan) (a : Nat)
  | wakeup (ch : Chan)
  | yield
  | kill (pid : UInt32)
  | exit
  | wait
  | fork

inductive Act where
  | go
  | call (r : Req)
  | memory (enough : Bool)

/-- `wakeup(ch)` on CPU `c`; `k` is where the step leads. -/
def wakeStep (c : Cpu) (ch : Chan) (w : Wake) (k : Option Wake → St → St) (s : St) :
    Except Fault St :=
  match w with
  | .lock => do
    let s ← acquire c .ptable s
    .ok (k (some (.scan 0)) s)
  | .scan j =>
    if h : j < nProc then
      .ok (k (some (.scan (j + 1))) { s with t := wakeOne (some ch) s.t ⟨j, h⟩ })
    else .ok (k (some .unlock) s)
  | .unlock => do
    let s ← release c .ptable s
    .ok (k none s)

/-- `wakeup` called by process `p` at point `x`. -/
def wakeNext (p : Slot) (ch : Chan) (x : Point) : Option Wake → St → St
  | some w => goto p (.wake ch w x)
  | none => goto p (.point x)

def intrNext (c : Cpu) (ch : Chan) : Option Wake → St → St
  | some w => sgoto c (.intr ch w)
  | none => sgoto c .loop

/-- The checks of `sched`, and its `swtch` to the scheduler. -/
def sched (c : Cpu) (p : Slot) (k : Ctx) (s : St) : Except Fault St :=
  if s.lock .ptable ≠ some c then .error (.panic "sched ptable.lock")
  else if s.ncli c ≠ 1 then .error (.panic "sched locks")
  else if s.t.state p = .running then .error (.panic "sched running")
  else .ok { s with
    context := update s.context p k
    pc := update s.pc p .off
    spc := update s.spc c (.back p) }

/-- A process goes on after `swtch` has come back to it. -/
def resume (c : Cpu) (p : Slot) : Ctx → St → Except Fault St
  | .forkret, s => do
    let s ← release c .ptable s
    .ok (goto p (.point .run) s)
  | .yield x, s => do
    let s ← release c .ptable s
    .ok (goto p (.point x) s)
  | .sleep l, s =>
    let s := { s with t := { s.t with chan := update s.t.chan p none } }
    match l with
    | .ptable => .ok (goto p .waitScan s)
    | .other a => .ok (goto p (.unlock (.reacquire a)) s)
  | .exit, _ => .error (.panic "zombie exit")

/-- A process asks for something; inside `fork` and `sleep` only interrupts do, and the timer
without spinlocks. -/
def start (c : Cpu) (p : Slot) : Point → Req → St → Except Fault St
  | x, .yield, s =>
    if s.ncli c = 0 then .ok (goto p (.yieldLock x) s) else .error .blocked
  | x, .wakeup ch, s => .ok (goto p (.wake ch .lock x) s)
  | .run, .acquire a, s => acquire c (.other a) s
  | .run, .release a, s => release c (.other a) s
  | .run, .sleep ch a, s => .ok (goto p (.sleepLock ch a) s)
  | .run, .kill pid, s => .ok (goto p (.killLock pid) s)
  | .run, .exit, s =>
    if p = s.t.initproc then .error (.panic "init exiting")
    else .ok (goto p .exitLock { s with t := turnaround p s.t })
  | .run, .wait, s => .ok (goto p .waitLock s)
  | .run, .fork, s => .ok (goto p .forkLock s)
  | _, _, _ => .error .blocked

/-- The round of the loop of `wait`, under `ptable.lock`. -/
def waitRound (p : Slot) (s : St) : St :=
  match Proc.waitScan s.t p (List.finRange nProc) false with
  | (some q, _) => goto p (.unlock .run) { s with t := reap q s.t }
  | (none, havekids) =>
    if !havekids || s.t.killed p then goto p (.unlock .run) s
    else goto p (.sleepChan (.proc p) .ptable) s

def procStep (c : Cpu) (p : Slot) (s : St) : Pc → Act → Except Fault St
  | .point x, .call r => start c p x r s
  | .point .forkBody, .memory enough =>
    match s.np p with
    | none => .error .blocked
    | some np =>
      if enough then .ok (goto p (.point .forkReady) { s with t := adopt p np s.t })
      else .ok (goto p (.point .run) { s with
        t := setState np .unused s.t, np := update s.np p none })
  | .point .forkReady, .go => do
    let s ← acquire c .ptable s
    .ok (goto p .forkReady s)
  | .point (.reacquire a), .go => do
    let s ← acquire c (.other a) s
    .ok (goto p (.point .run) s)
  | .unlock x, .go => do
    let s ← release c .ptable s
    .ok (goto p (.point x) s)
  | .yieldLock x, .go => do
    let s ← acquire c .ptable s
    .ok (goto p (.yieldState x) s)
  | .yieldState x, .go => .ok (goto p (.sched (.yield x)) { s with t := setState p .runnable s.t })
  | .sleepLock ch a, .go => do
    let s ← acquire c .ptable s
    .ok (goto p (.sleepUnlock ch a) s)
  | .sleepUnlock ch a, .go => do
    let s ← release c (.other a) s
    .ok (goto p (.sleepChan ch (.other a)) s)
  | .sleepChan ch l, .go =>
    .ok (goto p (.sleepState ch l) { s with
      t := { s.t with chan := update s.t.chan p (some ch) } })
  | .sleepState _ l, .go => .ok (goto p (.sched (.sleep l)) { s with t := setState p .sleeping s.t })
  | .sched k, .go => sched c p k s
  | .resume k, .go => resume c p k s
  | .wake ch w x, .go => wakeStep c ch w (wakeNext p ch x) s
  | .killLock pid, .go => do
    let s ← acquire c .ptable s
    .ok (goto p (.killScan pid) s)
  | .killScan pid, .go => .ok (goto p (.unlock .run) { s with t := (kill pid s.t).2 })
  | .exitLock, .go => do
    let s ← acquire c .ptable s
    .ok (goto p .exitScan s)
  | .exitScan, .go => .ok (goto p (.sched .exit) { s with t := exit p s.t })
  | .waitLock, .go => do
    let s ← acquire c .ptable s
    .ok (goto p .waitScan s)
  | .waitScan, .go => .ok (waitRound p s)
  | .forkLock, .go => do
    let s ← acquire c .ptable s
    .ok (goto p .forkAlloc s)
  | .forkAlloc, .go =>
    match allocSlot s.t with
    | none => .ok (goto p (.unlock .run) s)
    | some (np, t) => .ok (goto p (.unlock .forkBody) { s with
        t := t
        np := update s.np p (some np)
        context := update s.context np .forkret })
  | .forkReady, .go =>
    match s.np p with
    | none => .error .blocked
    | some np => .ok (goto p (.unlock .run) { s with
        t := setState np .runnable s.t, np := update s.np p none })
  | _, _ => .error .blocked

def schedStep (c : Cpu) (s : St) : SPc → Act → Except Fault St
  | .loop, .go => do
    let s ← acquire c .ptable s
    .ok (sgoto c .scan s)
  | .loop, .call (.wakeup ch) => .ok (sgoto c (.intr ch .lock) s)
  | .scan, .go =>
    let t := charge s.t
    match choose t with
    | none => .ok (sgoto c .unlock { s with t := t })
    | some p => .ok (sgoto c (.enter p) { s with t := { t with
        lastScheduled := update t.lastScheduled p t.ticks } })
  | .enter p, .go => .ok (sgoto c (.load p) { s with proc := update s.proc c (some p) })
  | .load p, .go => .ok (sgoto c (.mark p) { s with pgdir := update s.pgdir c (some p) })
  | .mark p, .go => .ok (sgoto c (.switch p) { s with t := setState p .running s.t })
  | .switch p, .go => .ok (goto p (.resume (s.context p)) (sgoto c (.away p) s))
  | .back p, .go => .ok (sgoto c (.account p) { s with pgdir := update s.pgdir c none })
  | .account p, .go => .ok (sgoto c (.clear p) { s with t := { s.t with
      runTime := if s.t.lastScheduled p ≠ 0 then update s.t.runTime p
        (s.t.runTime p + (s.t.ticks - s.t.lastScheduled p)) else s.t.runTime
      lastScheduled := update s.t.lastScheduled p s.t.ticks } })
  | .clear _, .go => .ok (sgoto c .unlock { s with proc := update s.proc c none })
  | .unlock, .go => do
    let s ← release c .ptable s
    .ok (sgoto c .loop s)
  | .intr ch w, .go => wakeStep c ch w (intrNext c ch) s
  | _, _ => .error .blocked

def step (s : St) (e : Cpu × Act) : Except Fault St :=
  match s.spc e.1 with
  | .away p => procStep e.1 p s (s.pc p) e.2
  | x => schedStep e.1 s x e.2

end Xv6.Sched
