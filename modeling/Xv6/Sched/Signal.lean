import Xv6.Sched.Monitor

namespace Xv6.Sched.Signal
open Lib Proc
set_option autoImplicit true

/-- The condition, and whether it is true since a finished signaller set it. -/
structure Cond where
  cond : Bool
  signalled : Bool

/-- Waiters test the condition, and go on when it holds; signallers change it, then wake. -/
inductive Phase where
  | test
  | body
  | change
  | wake
  deriving DecidableEq

inductive Input where
  | wait
  | signal
  | go
  | set (b : Bool)

def enter (d : Cond) : Input → Option (Cond × Phase)
  | .wait => some (d, .test)
  | .signal => some (d, .change)
  | _ => none

def Cond.set (d : Cond) (b : Bool) : Cond where
  cond := b
  signalled := d.signalled && b

def run (n : Nat) (d : Cond) : Phase → Input → Option (Cond × Out Phase)
  | .test, .go => if d.cond then some (d, .stay .body) else some (d, .sleep n .test)
  | .body, .set b => some (d.set b, .stay .body)
  | .body, .go => some (d, .leave 0)
  | .change, .set b => some (d.set b, .wakeup n .wake)
  | .wake, .go => some ({ d with signalled := d.cond }, .leave 0)
  | _, _ => none

theorem enter_woke (n : Nat) (h : enter d i = some (d', x)) :
    (if x = Phase.wake then some n else none) = none := by
  cases i <;> cases h <;> rfl

theorem run_rests (h : run n d x i = some (d', .sleep m x')) : decide (x' = Phase.test) = true := by
  unfold run at h
  split at h <;> grind

theorem run_woke (h : run n d x i = some (d', o)) (ho : o.next = some x')
    (hw : (if x' = Phase.wake then some n else none) = some m) : o = .wakeup m x' := by
  unfold run at h
  split at h <;> grind [Out.next]

/-- Waiters run `while(!cond) sleep(chan, lk);`, signallers `change cond; wakeup(chan);`. -/
def code (n a : Nat) : Code Cond Phase Input where
  lock := a
  chans := [n]
  enter := enter
  run d _ := run n d
  rests x := x = .test
  woke x := if x = .wake then some n else none
  enter_woke := enter_woke n
  run_rests := run_rests
  run_woke := run_woke

/-- The condition is true since a signaller set it whose `wakeup` has returned. -/
def Signalled (s : Mst Cond Phase) : Prop :=
  s.data.signalled = true ∨
    s.data.cond = true ∧ ∃ p, s.phase p = some .wake ∧ s.k.pc p = .point .run

structure Inv (n a : Nat) (s : Mst Cond Phase) : Prop where
  mon : Mon (code n a) s
  holds : s.data.signalled = true → s.data.cond = true ∧ Silent s n

theorem inv_boot (n a : Nat) (ticks : UInt32) (b : Bool) :
    Inv n a (Code.boot ticks ⟨b, false⟩) :=
  ⟨mon_boot .., nofun⟩

theorem mem_chans (n a : Nat) : n ∈ (code n a).chans :=
  List.mem_singleton_self n

theorem run_sleep (h : run n d x i = some (d', .sleep m x')) : d.cond = false := by
  unfold run at h
  split at h <;> first | cases h | skip
  split at h
  · cases h
  · next hc => exact Bool.not_eq_true _ ▸ hc

theorem run_signalled (h : run n d x i = some (d', o)) (hd : d.signalled = true → d.cond = true)
    (hs : d'.signalled = true) : d'.cond = true ∧ (d.signalled = true ∨ x = .wake) := by
  unfold run at h
  split at h <;> grind [Cond.set]

theorem Inv.step (h : Inv n a s) (ho : (code n a).step s e = .ok s') : Inv n a s' := by
  obtain ⟨c, e⟩ := e
  have hsilent (hs : s.data.signalled = true) : Silent s' n := by
    obtain ⟨hc, hn⟩ := h.holds hs
    refine h.mon.silent_step (mem_chans n a) hn ho fun i p x x' d _ _ _ hr => ?_
    cases hc.symm.trans (run_sleep hr)
  refine ⟨h.mon.step ho, ?_⟩
  rcases Code.step_cases ho with ⟨b, k', -, -, -, rfl⟩ | ⟨i, p, x, d, k', -, -, -, -, he, -, rfl⟩ |
    ⟨i, p, x, d, o, k', rfl, hc, hp, hx, hr, hk, rfl⟩
  · exact fun hs => ⟨(h.holds hs).1, hsilent hs⟩
  · have hd : d = s.data := by
      cases i <;> cases he <;> rfl
    rw [hd]
    exact fun hs => ⟨(h.holds hs).1, hsilent hs⟩
  · intro hs
    obtain ⟨hcond, hd | rfl⟩ := run_signalled hr (fun hs => (h.holds hs).1) hs
    · exact ⟨hcond, hsilent hd⟩
    · have hn := h.mon.silent_woken (mem_chans n a) hx rfl hp
      refine ⟨hcond, h.mon.silent_step (mem_chans n a) hn ho fun i' p' x x' d' he hc' hx' hr' => ?_⟩
      cases hc.symm.trans hc'
      cases hx.symm.trans hx'
      cases he
      cases i <;> cases hr'

/-- Once a signaller has made the condition true and done its `wakeup`, no process sleeps on the
channel while it stays true. -/
theorem no_lost_wakeup
    (h : Exec (code n a).step (fun _ _ => True) (Code.boot ticks ⟨b, false⟩) es s)
    (hs : Signalled s) (p : Slot) : ¬sleeping s.k (.addr n) p := by
  have hi : Inv n a s := h.invariant (inv_boot n a ticks b) fun _ _ _ hi _ ho => hi.step ho
  have hn : Silent s n := by
    rcases hs with hs | ⟨-, q, hq, hp⟩
    · exact (hi.holds hs).2
    · exact hi.mon.silent_woken (mem_chans n a) hq rfl hp
  exact fun hp => hn p (.inl hp)

def sys (c : Cpu) (l : List Act) : List (Cpu × Event Input) :=
  l.map fun a => (c, .sys a)

/-- Init forks; its child waits on CPU 1 and goes to sleep; init signals. -/
def signalRun : List (Cpu × Event Input) :=
  sys 0 (List.replicate 7 .go ++ [.call .fork, .go, .go, .go, .memory true, .go, .go, .go]) ++
  sys 1 (List.replicate 7 .go) ++ [(1, .code .wait), (1, .code .go)] ++
  sys 1 (List.replicate 9 .go) ++ [(0, .code .signal), (0, .code (.set true))] ++
  sys 0 (List.replicate 67 .go) ++ [(0, .code .go)]

theorem no_lost_wakeup_signalRun : ∃ s,
    Exec (code 8 0).step (fun _ _ => True) (Code.boot 0 ⟨false, false⟩) signalRun s ∧
      Signalled s ∧ s.k.lock (.other 0) = none ∧ s.k.lock .ptable = none ∧
      s.k.t.state 1 = .runnable ∧ ∀ p, ¬sleeping s.k (.addr 8) p := by
  obtain ⟨s, hr, hs⟩ := (Option.any_eq_true _ _).1
    (show (runLegal (code 8 0).step (fun _ _ => true) (Code.boot 0 ⟨false, false⟩) signalRun).any
      (fun s => s.data.signalled = true ∧ s.k.lock (.other 0) = none ∧ s.k.lock .ptable = none ∧
        s.k.t.state 1 = .runnable) = true by decide +kernel)
  obtain ⟨hd, hl, hpt, hst⟩ := of_decide_eq_true hs
  have hx : Exec (code 8 0).step (fun _ _ => True) (Code.boot 0 ⟨false, false⟩) signalRun s :=
    (exec_of_runLegal (code 8 0).step (fun _ _ => true) _ signalRun hr).mono fun _ _ _ => trivial
  exact ⟨s, hx, .inl hd, hl, hpt, hst, no_lost_wakeup hx (.inl hd)⟩

end Xv6.Sched.Signal
