import Xv6.Lib.Exec
import Xv6.Proc.Table

namespace Xv6.Proc.Calls
open Lib Function
set_option autoImplicit true

/-- The calls of a process, its choice by the scheduler and its timer interrupt. -/
inductive Call where
  | dispatch
  | yield
  | fork (mem : Memory)
  | exit
  | wait
  | kill (pid : UInt32)
  | setpriority (pid : UInt32) (priority : Int)
  | getstats (pid : UInt32) (copyout : Bool)

/-- The process table and, as a history, the pids of forks that failed. -/
structure St where
  t : Ptable
  failed : List UInt32

def boot (ticks : UInt32) : St where
  t := userinit ticks
  failed := []

/-- The scheduler chooses runnable processes; calls are made by running ones. -/
def ready (s : St) (p : Slot) : Call → Bool
  | .dispatch => s.t.state p = .runnable
  | _ => s.t.state p = .running

def act (s : St) (p : Slot) : Call → Except Fault St
  | .dispatch => .ok { s with t := run p s.t }
  | .yield => .ok { s with t := setState p .runnable s.t }
  | .fork mem =>
    match allocSlot s.t, fork p mem s.t with
    | some _, (none, t) => .ok { t := t, failed := s.t.nextpid :: s.failed }
    | _, (_, t) => .ok { s with t := t }
  | .exit =>
    if p = s.t.initproc then .error (.panic "init exiting")
    else .ok { s with t := exit p (turnaround p s.t) }
  | .wait => .ok { s with t := (wait p s.t).2 }
  | .kill pid => .ok { s with t := (kill pid s.t).2 }
  | .setpriority pid priority => .ok { s with t := (setpriority pid priority s.t).2 }
  | .getstats pid copyout => .ok { s with t := (getstats pid copyout s.t).2.2 }

def step (s : St) (e : Slot × Call) : Except Fault St :=
  if ready s e.1 e.2 then act s e.1 e.2 else .error .blocked

/-- A pid not left over in a free slot: not 0, and not of a failed fork. -/
def Clean (s : St) (pid : UInt32) : Prop :=
  pid ≠ 0 ∧ pid ∉ s.failed

instance (s : St) (pid : UInt32) : Decidable (Clean s pid) :=
  inferInstanceAs (Decidable (_ ∧ _))

/-- The callers of `kill` name only clean pids. -/
def legal (s : St) : Slot × Call → Bool
  | (_, .kill pid) => Clean s pid
  | _ => true

/-- Free slots are not killed, and hold no pid that a caller may name. -/
def Inv (s : St) : Prop :=
  ∀ p, s.t.state p = .unused → s.t.killed p = false ∧ ¬Clean s (s.t.pid p)

theorem inv_boot (ticks : UInt32) : Inv (boot ticks) := by
  intro p hp
  have hne : p ≠ 0 := by
    rintro rfl
    cases hp
  refine ⟨rfl, fun hc => hc.1 ?_⟩
  simp [boot, userinit, hne]

theorem Inv.keep (h : Inv s) (hs : ∀ p, t.state p = .unused → s.t.state p = .unused ∧
    t.killed p = s.t.killed p ∧ t.pid p = s.t.pid p) : Inv { s with t := t } := by
  intro p hp
  obtain ⟨hu, hk, hpid⟩ := hs p hp
  rw [hk, hpid]
  exact h p hu

theorem Inv.used (h : Inv s) (hx : x ≠ .unused) (hs : t.state = update s.t.state p x)
    (hk : t.killed = s.t.killed) (hp : t.pid = s.t.pid) : Inv { s with t := t } := by
  apply h.keep
  intro q hq
  rw [hs] at hq
  have hne : q ≠ p := by
    rintro rfl
    rw [update_self] at hq
    exact hx hq
  rw [update_of_ne hne] at hq
  exact ⟨hq, congrFun hk q, congrFun hp q⟩

theorem Inv.free (h : Inv s) (ha : allocSlot s.t = some (np, t)) :
    Inv { t := Proc.setState np .unused t, failed := s.t.nextpid :: s.failed } := by
  obtain ⟨hu, hstate, hpid, -, -, -, hkilled, -⟩ := allocSlot_some ha
  intro q hq
  by_cases hne : q = np
  · subst hne
    refine ⟨?_, fun hc => hc.2 ?_⟩
    · exact (congrFun hkilled q).trans (h q hu).1
    · simp [Proc.setState, hpid]
  · have hq' : s.t.state q = .unused := by
      simpa [Proc.setState, hstate, hne] using hq
    obtain ⟨hk, hc⟩ := h q hq'
    refine ⟨(congrFun hkilled q).trans hk, fun hc' => hc ⟨?_, ?_⟩⟩
    · simpa [Proc.setState, hpid, hne] using hc'.1
    · have hmem := hc'.2
      simp only [Proc.setState, hpid, update_of_ne hne, List.mem_cons, not_or] at hmem
      exact hmem.2

theorem Inv.fork (h : Inv s) (ho : act s p (.fork mem) = .ok s') : Inv s' := by
  rw [act] at ho
  unfold Proc.fork at ho
  cases ha : allocSlot s.t with
  | none =>
    rw [ha] at ho
    cases ho
    exact h
  | some x =>
    obtain ⟨np, t⟩ := x
    rw [ha] at ho
    cases mem with
    | noStack =>
      cases ho
      exact h.free ha
    | noPages =>
      cases ho
      exact h.free ha
    | enough =>
      obtain ⟨-, hstate, hpid, -, -, -, hkilled, -⟩ := allocSlot_some ha
      cases ho
      apply h.keep
      intro q hq
      have hne : q ≠ np := by
        rintro rfl
        cases (setState_self ..).symm.trans hq
      rw [setState_of_ne hne] at hq
      refine ⟨?_, congrFun hkilled q, ?_⟩
      · simpa [adopt, hstate, hne] using hq
      · simp [Proc.setState, adopt, hpid, hne]

theorem Inv.exit (h : Inv s) (hp : p ≠ s.t.initproc) :
    Inv { s with t := exit p (turnaround p s.t) } := by
  have he := exited (t := turnaround p s.t) hp
  apply h.keep
  intro q hq
  have hne : q ≠ p := by
    rintro rfl
    cases he.zombie.symm.trans hq
  have hstate : s.t.state q = .unused := by
    rcases he.state q hne with hs | ⟨-, hs⟩
    · exact hs.symm.trans hq
    · cases hs.symm.trans hq
  refine ⟨hstate, ?_, ?_⟩
  · rw [he.frame]
    rfl
  · rw [he.frame]
    rfl

theorem Inv.wait (h : Inv s) (p : Slot) : Inv { s with t := (wait p s.t).2 } := by
  rcases wait_cases p s.t with ⟨q, -, -, hw⟩ | ⟨-, hw⟩ | ⟨-, hw⟩
  · rw [hw]
    intro r hr
    by_cases hne : r = q
    · subst hne
      refine ⟨update_self .., fun hc => hc.1 ?_⟩
      exact update_self ..
    · have hr' : s.t.state r = .unused := by
        simpa [reap, hne] using hr
      simpa [reap, hne, Clean] using h r hr'
  · rw [hw]
    exact h
  · rw [hw]
    exact h.used (x := .sleeping) nofun rfl rfl rfl

theorem Inv.kill (h : Inv s) (hc : Clean s pid) : Inv { s with t := (kill pid s.t).2 } := by
  rcases kill_cases pid s.t with ⟨-, hk⟩ | ⟨p, hp, -, hk⟩
  · rw [hk]
    exact h
  · rw [hk]
    have hused : s.t.state p ≠ .unused := fun hu => (h p hu).2 (hp ▸ hc)
    apply h.keep
    intro q hq
    have hne : q ≠ p := by
      rintro rfl
      simp only [update_self] at hq
      split at hq
      · cases hq
      · exact hused hq
    simpa [hne] using hq

theorem Inv.step (h : Inv s) (hl : legal s e = true) (ho : step s e = .ok s') : Inv s' := by
  obtain ⟨p, call⟩ := e
  rw [Calls.step] at ho
  obtain ⟨-, ho⟩ := if_ok ho
  cases call with
  | dispatch =>
    cases ho
    exact h.used (x := .running) nofun rfl rfl rfl
  | yield =>
    cases ho
    exact h.used (x := .runnable) nofun rfl rfl rfl
  | fork mem => exact h.fork ho
  | exit =>
    simp only [act] at ho
    obtain ⟨hp, ho⟩ := unless_ok ho
    cases ho
    exact h.exit hp
  | wait =>
    cases ho
    exact h.wait p
  | kill pid =>
    cases ho
    exact h.kill (of_decide_eq_true hl)
  | setpriority pid priority =>
    cases ho
    rcases setpriority_cases pid priority s.t with he | ⟨q, -, he⟩
    · rw [he]
      exact h
    · rw [he]
      exact h.keep fun r hr => ⟨hr, rfl, rfl⟩
  | getstats pid copyout =>
    cases ho
    rcases getstats_cases pid copyout s.t with he | ⟨q, stats, -, he⟩
    · rw [he]
      exact h
    · rw [he]
      exact h

theorem inv_exec (h : Exec step (fun s e => legal s e) (boot ticks) es s) : Inv s :=
  h.invariant (inv_boot ticks) fun _ _ _ hi hl ho => hi.step hl ho

def InUse (pid : UInt32) (t : Ptable) : Prop :=
  ∃ p, t.state p ≠ .unused ∧ t.pid p = pid

theorem Inv.inUse (h : Inv s) (hc : Clean s pid) (hp : s.t.pid p = pid) : InUse pid s.t := by
  refine ⟨p, fun hu => (h p hu).2 ?_, hp⟩
  rw [hp]
  exact hc

theorem Inv.finds {r fail : Int × β} (h : Inv s) (hc : Clean s pid) (hf : fail.1 = -1)
    (hr : r = fail ∨ ∃ p, s.t.pid p = pid) :
    (r.1 = 0 → InUse pid s.t) ∧ (¬InUse pid s.t → r = fail) := by
  rcases hr with rfl | ⟨p, hp⟩
  · refine ⟨fun h0 => ?_, fun _ => rfl⟩
    rw [hf] at h0
    cases h0
  · have hu := h.inUse hc hp
    exact ⟨fun _ => hu, fun hn => absurd hu hn⟩

/-- While `kill` is given clean pids, no free slot is killed; and clean pids find existing processes
only. -/
theorem pid_calls_touch_existing (h : Exec step (fun s e => legal s e) (boot ticks) es s) :
    (∀ p, s.t.state p = .unused → s.t.killed p = false) ∧
    (∀ p mem np pid t, fork p mem s.t = (some (np, pid), t) → t.killed np = false) ∧
    ∀ pid, Clean s pid →
      (((kill pid s.t).1 = 0 → InUse pid s.t) ∧
        (¬InUse pid s.t → kill pid s.t = (-1, s.t))) ∧
      (∀ priority, ((setpriority pid priority s.t).1 = 0 → InUse pid s.t) ∧
        (¬InUse pid s.t → setpriority pid priority s.t = (-1, s.t))) ∧
      ∀ copyout, ((getstats pid copyout s.t).1 = 0 → InUse pid s.t) ∧
        (¬InUse pid s.t → getstats pid copyout s.t = (-1, none, s.t)) := by
  have hi := inv_exec h
  refine ⟨fun p hp => (hi p hp).1, ?_, ?_⟩
  · intro p mem np pid t hf
    unfold fork at hf
    split at hf
    · cases hf
    · next np' t' ha =>
      obtain ⟨hu, -, -, -, -, -, hkilled, -⟩ := allocSlot_some ha
      cases mem with
      | noStack => cases hf
      | noPages => cases hf
      | enough =>
        cases hf
        exact (congrFun hkilled np).trans (hi np hu).1
  · intro pid hc
    refine ⟨?_, fun priority => ?_, fun copyout => ?_⟩
    · apply hi.finds hc rfl
      exact (kill_cases pid s.t).imp And.right fun ⟨p, hp, _⟩ => ⟨p, hp⟩
    · apply hi.finds hc rfl
      exact (setpriority_cases pid priority s.t).imp_right fun ⟨p, hp, _⟩ => ⟨p, hp⟩
    · apply hi.finds hc rfl
      exact (getstats_cases pid copyout s.t).imp_right fun ⟨p, _, hp, _⟩ => ⟨p, hp⟩

/-- A child is killed, exits and is reaped, and its slot is used again. -/
def reuseRun : List (Slot × Call) :=
  [(0, .dispatch), (0, .fork .noPages), (0, .fork .enough), (0, .kill 3), (0, .yield),
   (1, .dispatch), (1, .exit), (0, .dispatch), (0, .wait)]

theorem pid_calls_touch_existing_reuseRun : ∃ s,
    Exec step (fun s e => legal s e) (boot 0) reuseRun s ∧ s.failed = [2] ∧
      s.t.pid 1 = 0 ∧ (∀ p, s.t.state p = .unused → s.t.killed p = false) := by
  obtain ⟨s, hr, hs⟩ := (Option.any_eq_true _ _).1
    (show (runLegal step legal (boot 0) reuseRun).any
      (fun s => s.failed = [2] ∧ s.t.pid 1 = 0) = true by decide +kernel)
  have hs := of_decide_eq_true hs
  have hx := exec_of_runLegal step legal (boot 0) reuseRun hr
  exact ⟨s, hx, hs.1, hs.2, (pid_calls_touch_existing hx).1⟩

/-- `kill(0)` marks a free slot, and the next process starts as a killed one. -/
theorem kill_zero_marks_free_slot : ∃ s,
    Exec step (fun _ _ => True) (boot 0) [(0, .dispatch)] s ∧ ¬InUse 0 s.t ∧
      (kill 0 s.t).1 = 0 ∧ (kill 0 s.t).2.state 1 = .unused ∧ (kill 0 s.t).2.killed 1 = true ∧
      (setpriority 0 5 s.t).1 = 0 ∧ (setpriority 0 5 s.t).2.priority 1 ≠ s.t.priority 1 ∧
      (getstats 0 true s.t).1 = 0 ∧
      (fork 0 .enough (kill 0 s.t).2).1 = some (1, 2) ∧
      (fork 0 .enough (kill 0 s.t).2).2.killed 1 = true := by
  obtain ⟨s, hr, hs⟩ := (Option.any_eq_true _ _).1
    (show (runLegal step (fun _ _ => true) (boot 0) [(0, .dispatch)]).any
      (fun s => (∀ p, s.t.state p ≠ .unused → s.t.pid p ≠ 0) ∧
        (kill 0 s.t).1 = 0 ∧ (kill 0 s.t).2.state 1 = .unused ∧ (kill 0 s.t).2.killed 1 = true ∧
        (setpriority 0 5 s.t).1 = 0 ∧ (setpriority 0 5 s.t).2.priority 1 ≠ s.t.priority 1 ∧
        (getstats 0 true s.t).1 = 0 ∧
        (fork 0 .enough (kill 0 s.t).2).1 = some (1, 2) ∧
        (fork 0 .enough (kill 0 s.t).2).2.killed 1 = true) = true by decide +kernel)
  obtain ⟨hpid, hs⟩ := of_decide_eq_true hs
  have hx := exec_of_runLegal step (fun _ _ => true) (boot 0) _ hr
  exact ⟨s, hx.mono fun _ _ _ => trivial, fun ⟨p, hu, hp⟩ => hpid p hu hp, hs⟩

end Xv6.Proc.Calls
