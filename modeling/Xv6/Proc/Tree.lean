import Xv6.Lib.Exec
import Xv6.Proc.Table

namespace Xv6.Proc.Tree
open Lib Function
set_option autoImplicit true

/-- Where a process is: elsewhere, in `fork` with its child, or in `wait`. -/
inductive Pc where
  | user
  | forkStack (np : Slot)
  | forkPages (np : Slot)
  | forkParent (np : Slot)
  | forkReady (np : Slot)
  | waiting
  deriving DecidableEq

def Pc.child : Pc → Option Slot
  | .user => none
  | .forkStack np => some np
  | .forkPages np => some np
  | .forkParent np => some np
  | .forkReady np => some np
  | .waiting => none

inductive Obs where
  | forked (p : Slot) (pid : UInt32)
  | exited (p : Slot) (pid : UInt32)
  | waited (p : Slot) (pid : UInt32)
  | waitFailed (p : Slot)
  deriving DecidableEq

/-- The process table between critical sections, and the history of calls. -/
structure St where
  t : Ptable
  pc : Slot → Pc
  hist : List Obs

def boot (ticks : UInt32) : St where
  t := userinit ticks
  pc _ := .user
  hist := []

/-- A critical section of `ptable.lock`, or what `fork` does without it. `sleep` and `wakeup` are
those of other calls. -/
inductive Act where
  | dispatch
  | yield
  | sleep (a : Nat)
  | wakeup (a : Nat)
  | fork
  | memory (enough : Bool)
  | parent
  | ready
  | exit
  | wait
  | kill (pid : UInt32)

def goto (s : St) (p : Slot) (x : Pc) : St :=
  { s with pc := update s.pc p x }

theorem goto_self (s : St) (p : Slot) (x : Pc) : (goto s p x).pc p = x :=
  update_self ..

theorem goto_of_ne (h : q ≠ p) : (goto s p x).pc q = s.pc q :=
  update_of_ne h ..

def waitRound (s : St) (p : Slot) : St :=
  match wait p s.t with
  | (.reaped _ pid, t) =>
    { t := t, pc := update s.pc p .user, hist := s.hist ++ [.waited p pid] }
  | (.failed, t) =>
    { t := t, pc := update s.pc p .user, hist := s.hist ++ [.waitFailed p] }
  | (.asleep, t) => { s with t := t, pc := update s.pc p .waiting }

def userStep (s : St) (p : Slot) : Act → Except Fault St
  | .sleep a => .ok { s with t := sleepOn p (.addr a) s.t }
  | .fork =>
    match allocSlot s.t with
    | none => .ok s
    | some (np, t) => .ok (goto { s with t := t } p (.forkStack np))
  | .exit =>
    if p = s.t.initproc then .error (.panic "init exiting")
    else .ok { s with
      t := exit p (turnaround p s.t), hist := s.hist ++ [.exited p (s.t.pid p)] }
  | .wait => .ok (waitRound s p)
  | .kill pid => .ok { s with t := (kill pid s.t).2 }
  | _ => .error .blocked

def forkStep (s : St) (p : Slot) : Pc → Act → Except Fault St
  | .forkStack np, .memory true => .ok (goto s p (.forkPages np))
  | .forkPages np, .memory true => .ok (goto s p (.forkParent np))
  | .forkStack np, .memory false => .ok (goto { s with t := setState np .unused s.t } p .user)
  | .forkPages np, .memory false => .ok (goto { s with t := setState np .unused s.t } p .user)
  | .forkParent np, .parent => .ok (goto { s with t := adopt p np s.t } p (.forkReady np))
  | .forkReady np, .ready =>
    .ok { t := setState np .runnable s.t
          pc := update s.pc p .user
          hist := s.hist ++ [.forked p (s.t.pid np)] }
  | _, _ => .error .blocked

def runningStep (s : St) (p : Slot) : Act → Except Fault St
  | .yield => .ok { s with t := setState p .runnable s.t }
  | .wakeup ch => .ok { s with t := wakeup1 (some (.addr ch)) s.t }
  | a => if s.pc p = .user then userStep s p a else forkStep s p (s.pc p) a

/-- The scheduler enters `p`, which goes on at once if it is in `wait`. -/
def dispatch (s : St) (p : Slot) : St :=
  let s := { s with t := run p s.t }
  if s.pc p = .waiting then waitRound s p else s

def step (s : St) (e : Slot × Act) : Except Fault St :=
  match e.2 with
  | .dispatch =>
    if s.t.state e.1 = .runnable then .ok (dispatch s e.1) else .error .blocked
  | a => if s.t.state e.1 = .running then runningStep s e.1 a else .error .blocked

def legal (s : St) (_ : Slot × Act) : Bool :=
  s.t.nextpid.toNat ≤ 2 ^ 31

end Xv6.Proc.Tree
