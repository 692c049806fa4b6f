import Mathlib.Logic.Relation
import Xv6.Proc.Family

namespace Xv6.Proc.Tree
open Lib Function
set_option autoImplicit true

section Wait
variable {state : Slot → ProcState}

theorem Family.reap (h : Family init state parent pid) (hz : state q = .zombie) :
    Family init (update state q .unused) (update parent q none)
      (update pid q 0) := by
  constructor
  · grind [h.root, live]
  · intro p hp hl
    have hc := h.child p hp
    grind [live]
  · intro p r hp
    have ho := h.older p r
    grind [live]
  · intro p hp
    have hf := h.free p
    grind

theorem Pids.reap (h : Pids state pid next) :
    Pids (update state q .unused) (update pid q 0) next := by
  constructor
  · intro p hp
    have hlt := h.issued p
    grind
  · intro p r hp hr he
    have hd := h.distinct p r
    grind

theorem Forks.reap (h : Forks state parent pid pc) (hz : state q = .zombie) :
    Forks (update state q .unused) (update parent q none)
      (update pid q 0) pc := by
  constructor
  · intro p np hc
    have hb := h.busy p np hc
    grind
  · exact h.single
  · intro p r hp hr
    have he := h.embryo p r
    grind
  · intro p np hr
    have ha := h.adopted p np hr
    have hb := h.busy p np (by rw [hr]; rfl)
    grind
  · intro p hl
    have hi := h.idle p
    grind [live]

theorem Waits.reap (h : Waits state parent chan pc) (hz : state q = .zombie) :
    Waits (update state q .unused) (update parent q none) chan pc := by
  intro p hp
  have hw := h p hp
  grind

theorem Reaped.reap (h : Reaped state pid next hist) (hi : Pids state pid next)
    (hz : state q = .zombie) :
    Reaped (update state q .unused) (update pid q 0) next
      (hist ++ [.waited p (pid q)]) := by
  constructor
  · intro r hr
    have he := h.exited r
    grind
  · intro r n hr
    have hg := h.gone r n
    have hlt := hi.issued q
    have hd := hi.distinct q
    grind
  · intro n
    rw [List.countP_append]
    by_cases hn : n = pid q
    · have hnone : hist.countP (Obs.isWait n) = 0 := by
        rw [List.countP_eq_zero]
        intro o ho hw
        cases o with
        | waited r m =>
          have hm : m = n := of_decide_eq_true hw
          rw [hm] at ho
          exact (h.gone r n ho).2 q (by rw [hz]; nofun) hn.symm
        | _ => cases hw
      rw [hnone, Nat.zero_add]
      exact List.countP_le_length
    · have hsame : [Obs.waited p (pid q)].countP (Obs.isWait n) = 0 := by
        simp [Obs.isWait, Ne.symm hn]
      rw [hsame]
      exact h.once n

theorem Forks.await (h : Forks state parent pid pc) (hs : state p = .running)
    (hp : pc p = .user) :
    Forks (update state p .sleeping) parent pid (update pc p .waiting) := by
  constructor
  · intro q np hc
    have hb := h.busy q np
    grind [Pc.child]
  · intro q r np hq hr
    have hsi := h.single q r np
    grind [Pc.child]
  · intro q r hq hr
    have he := h.embryo q r
    grind
  · intro q np hr
    have ha := h.adopted q np
    grind
  · intro q hl
    have hi := h.idle q
    grind [live]

theorem Waits.await (h : Waits state parent chan pc)
    (hz : ∀ q, parent q = some p → state q ≠ .zombie) :
    Waits (update state p .sleeping) parent (update chan p (some (.proc p)))
      (update pc p .waiting) := by
  intro q hq
  have hw := h q
  grind

theorem shift_update (hl : live (state p) = true) (hx : live x = true) :
    Shift state (update state p x) := by
  intro q
  by_cases hq : q = p
  · subst hq
    rw [update_self]
    exact .inr ⟨hl, hx⟩
  · rw [update_of_ne hq]
    exact .inl rfl

theorem Inv.waitRound (h : Inv s) (hs : s.t.state p = .running) (hp : s.pc p = .user) :
    Inv (waitRound s p) := by
  have hpc : update s.pc p .user = s.pc := by
    rw [← hp, update_eq_self]
  unfold Tree.waitRound
  rcases wait_cases p s.t with ⟨q, -, hz, hw⟩ | ⟨-, hw⟩ | ⟨hz, hw⟩
  · rw [hw, hpc]
    constructor
    · exact h.family.reap hz
    · exact h.pids.reap
    · exact h.forks.reap hz
    · exact h.waits.reap hz
    · exact h.reaped.reap h.pids hz
  · rw [hw, hpc]
    refine { h with reaped := ⟨fun q hq => ?_, fun q n hq => ?_, fun n => ?_⟩ }
    · exact List.mem_append_left _ (h.reaped.exited q hq)
    · have hg := h.reaped.gone q n
      grind
    · have ho := h.reaped.once n
      simpa [Obs.isWait] using ho
  · rw [hw]
    have hl : live (s.t.state p) = true := by
      rw [hs]
      rfl
    have hsh := shift_update hl (x := .sleeping) rfl
    constructor
    · exact h.family.shift hsh
    · exact h.pids.shift hsh
    · exact h.forks.await hs hp
    · exact h.waits.await hz
    · exact h.reaped.shift hsh

end Wait

theorem Inv.wake (h : Inv s) (hparent : t.parent = s.t.parent) (hpid : t.pid = s.t.pid)
    (hchan : t.chan = s.t.chan) (hnext : t.nextpid = s.t.nextpid)
    (hinit : t.initproc = s.t.initproc)
    (hst : ∀ p, t.state p = s.t.state p ∨ s.t.state p = .sleeping ∧ t.state p = .runnable) :
    Inv { s with t := t } := by
  have hsh : Shift s.t.state t.state := by
    intro p
    refine (hst p).imp_right fun ⟨hs, ht⟩ => ?_
    rw [hs, ht]
    exact ⟨rfl, rfl⟩
  constructor
  · rw [hparent, hpid, hinit]
    exact h.family.shift hsh
  · rw [hpid, hnext]
    exact h.pids.shift hsh
  · rw [hparent, hpid]
    apply h.forks.shift hsh
    intro p np hp
    have hb := h.forks.busy p np hp
    have hp := hst p
    grind
  · rw [hparent, hchan]
    intro p hp
    have hw := h.waits p hp
    have hz (q : Slot) := hsh.eq_iff (x := .zombie) rfl q
    have hp := hst p
    grind
  · rw [hpid, hnext]
    exact h.reaped.shift hsh

theorem Inv.set (h : Inv s) (hl : live (s.t.state p) = true) (hx : live x = true)
    (hw : s.pc p ≠ .waiting)
    (hb : ∀ np, (s.pc p).child = some np → x = .running ∨ x = .runnable)
    (hparent : t.parent = s.t.parent) (hpid : t.pid = s.t.pid)
    (hchan : ∀ q, q ≠ p → t.chan q = s.t.chan q) (hnext : t.nextpid = s.t.nextpid)
    (hinit : t.initproc = s.t.initproc) (hst : t.state = update s.t.state p x) :
    Inv { s with t := t } := by
  have hsh : Shift s.t.state t.state := hst ▸ shift_update hl hx
  constructor
  · rw [hparent, hpid, hinit]
    exact h.family.shift hsh
  · rw [hpid, hnext]
    exact h.pids.shift hsh
  · rw [hparent, hpid]
    apply h.forks.shift hsh
    intro q np hq
    have hbq := h.forks.busy q np hq
    have hb := hb np
    rw [hst]
    grind
  · rw [hparent]
    intro q hq
    have hwq := h.waits q hq
    have hz (r : Slot) := hsh.eq_iff (x := .zombie) rfl r
    have hne : q ≠ p := by
      rintro rfl
      exact hw hq
    have hsq : t.state q = s.t.state q := by
      rw [hst, update_of_ne hne]
    simp only [hsq, hchan q hne, ne_eq, hz]
    exact hwq
  · rw [hpid, hnext]
    exact h.reaped.shift hsh

theorem Forks.move (h : Forks state parent pid pc) (hk : x.child = (pc p).child)
    (hp : ∀ np, pc p ≠ .forkReady np) (hx : ∀ np, x ≠ .forkReady np)
    (hl : live (state p) = true) : Forks state parent pid (update pc p x) := by
  have hk (q : Slot) : (update pc p x q).child = (pc q).child :=
    proj_update Pc.child pc hk q
  constructor
  · intro q np hq
    rw [hk] at hq
    exact h.busy q np hq
  · intro q r np hq hr
    rw [hk] at hq hr
    exact h.single q r np hq hr
  · intro q r hq hr
    have he := h.embryo q r hq hr
    grind
  · intro q np hq
    have ha := h.adopted q np
    grind
  · intro q hq
    have hi := h.idle q hq
    grind

theorem Inv.move (h : Inv s) (hk : x.child = (s.pc p).child)
    (hp : ∀ np, s.pc p ≠ .forkReady np) (hx : ∀ np, x ≠ .forkReady np) (hw : x ≠ .waiting)
    (hl : live (s.t.state p) = true) : Inv (goto s p x) := by
  refine { h with forks := h.forks.move hk hp hx hl, waits := fun q hq => ?_ }
  by_cases hqp : q = p
  · rw [hqp, goto_self] at hq
    exact absurd hq hw
  · rw [goto_of_ne hqp] at hq
    exact h.waits q hq

theorem waitRound_goto (s : St) (p : Slot) : waitRound (goto s p x) p = waitRound s p := by
  unfold waitRound goto
  simp only [update_idem]

theorem Inv.userStep (h : Inv s) (hl : s.t.nextpid.toNat ≤ 2 ^ 31)
    (hs : s.t.state p = .running) (hp : s.pc p = .user) (ho : userStep s p a = .ok s') :
    Inv s' := by
  have hlive : live (s.t.state p) = true := by
    rw [hs]
    rfl
  cases a with
  | sleep a =>
    cases ho
    exact h.set (x := .sleeping) hlive rfl (by rw [hp]; nofun) (by rw [hp]; nofun) rfl rfl
      (fun q hq => update_of_ne hq ..) rfl rfl rfl
  | fork =>
    simp only [Tree.userStep] at ho
    split at ho
    · cases ho
      exact h
    · next np t ha =>
      cases ho
      exact h.alloc hl hp hs ha
  | exit =>
    simp only [Tree.userStep] at ho
    obtain ⟨hc, ho⟩ := unless_ok ho
    cases ho
    exact h.exit hc hs hp
  | wait =>
    cases ho
    exact h.waitRound hs hp
  | kill pid =>
    cases ho
    rcases kill_cases pid s.t with ⟨-, hk⟩ | ⟨q, -, -, hk⟩
    · rw [hk]
      exact h
    · rw [hk]
      refine h.wake rfl rfl rfl rfl rfl fun r => ?_
      grind
  | _ => cases ho

theorem Inv.forkStep (h : Inv s) (hs : s.t.state p = .running)
    (ho : forkStep s p (s.pc p) a = .ok s') : Inv s' := by
  have hlive : live (s.t.state p) = true := by
    rw [hs]
    rfl
  unfold Tree.forkStep at ho
  split at ho
  · next _ np hp =>
    cases ho
    exact h.move (by rw [hp]; rfl) (by rw [hp]; nofun) nofun nofun hlive
  · next _ np hp =>
    cases ho
    exact h.move (by rw [hp]; rfl) (by rw [hp]; nofun) nofun nofun hlive
  · next _ np hp =>
    cases ho
    exact h.drop (by rw [hp]; rfl) (by rw [hp]; nofun)
  · next _ np hp =>
    cases ho
    exact h.drop (by rw [hp]; rfl) (by rw [hp]; nofun)
  · next _ np hp =>
    cases ho
    exact h.adopt hp
  · next _ np hp =>
    cases ho
    exact h.ready hp
  · cases ho

theorem Inv.runningStep (h : Inv s) (hl : s.t.nextpid.toNat ≤ 2 ^ 31)
    (hs : s.t.state p = .running) (ho : runningStep s p a = .ok s') : Inv s' := by
  have hlive : live (s.t.state p) = true := by
    rw [hs]
    rfl
  have hw : s.pc p ≠ .waiting := by
    intro hw
    have hr := h.waits p hw
    grind
  unfold Tree.runningStep at ho
  split at ho
  · cases ho
    exact h.set (x := .runnable) hlive rfl hw (fun _ _ => .inr rfl) rfl rfl (fun _ _ => rfl)
      rfl rfl rfl
  · cases ho
    rw [wakeup1_eq]
    exact h.wake rfl rfl rfl rfl rfl fun q => woken_cases ..
  · split at ho
    · next hp => exact h.userStep hl hs hp ho
    · exact h.forkStep hs ho

theorem Inv.dispatch (h : Inv s) (hs : s.t.state p = .runnable) : Inv (dispatch s p) := by
  have hlive : live (s.t.state p) = true := by
    rw [hs]
    rfl
  have hrun (s : St) (h : Inv s) (hl : live (s.t.state p) = true) (hw : s.pc p ≠ .waiting) :
      Inv { s with t := run p s.t } :=
    h.set (x := .running) hl rfl hw (fun _ _ => .inl rfl) rfl rfl
      (fun q hq => update_of_ne hq ..) rfl rfl rfl
  rw [Tree.dispatch]
  split
  · next hw =>
    have hm := h.move (x := .user) (p := p) (by rw [hw]; rfl) (by rw [hw]; nofun) nofun nofun hlive
    have hg := hrun _ hm hlive (by rw [goto_self]; nofun)
    have hr := hg.waitRound (update_self ..) (goto_self ..)
    exact waitRound_goto .. ▸ hr
  · next hw => exact hrun s h hlive hw

theorem Inv.step (h : Inv s) (hl : legal s e = true) (ho : step s e = .ok s') : Inv s' := by
  have hl := of_decide_eq_true hl
  unfold Tree.step at ho
  split at ho
  · obtain ⟨hs, ho⟩ := if_ok ho
    cases ho
    exact h.dispatch hs
  · obtain ⟨hs, ho⟩ := if_ok ho
    exact h.runningStep hl hs ho

theorem inv_exec (h : Exec step (fun s e => legal s e) (boot ticks) es s) : Inv s :=
  h.invariant (inv_boot ticks) fun _ _ _ hi hl ho => hi.step hl ho

/-- Following parents leads to init. -/
theorem Family.reaches (h : Family init state parent pid)
    (hl : live (state p) = true ∨ state p = .zombie) :
    Relation.ReflTransGen (fun p q => parent p = some q) p init := by
  induction hn : (pid p).toNat using Nat.strong_induction_on generalizing p with
  | h n ih =>
    subst hn
    by_cases hp : p = init
    · rw [hp]
    · obtain ⟨q, hq⟩ := Option.ne_none_iff_exists'.1 (h.child p hp hl)
      obtain ⟨hlq, hlt⟩ := h.older p q hq
      exact .head hq (ih _ hlt (.inl hlq) rfl)

/-- What a step from `s` may add to the history of calls. -/
inductive Logs (s s' : St) : Prop where
  | nothing (h : s'.hist = s.hist)
  | forked (p : Slot) (pid : UInt32) (h : s'.hist = s.hist ++ [.forked p pid])
  | exited (p : Slot) (pid : UInt32) (h : s'.hist = s.hist ++ [.exited p pid])
  | waited (p q : Slot) (hq : s.t.parent q = some p) (hz : s.t.state q = .zombie)
      (h : s'.hist = s.hist ++ [.waited p (s.t.pid q)])
  | failed (p : Slot) (hp : (∀ q, s.t.parent q ≠ some p) ∨ s.t.killed p = true)
      (h : s'.hist = s.hist ++ [.waitFailed p])

theorem logs_waitRound (s : St) (p : Slot) : Logs s (waitRound s p) := by
  unfold waitRound
  rcases wait_cases p s.t with ⟨q, hp, hz, hw⟩ | ⟨hf, hw⟩ | ⟨-, hw⟩
  · rw [hw]
    exact .waited p q hp hz rfl
  · rw [hw]
    exact .failed p hf rfl
  · rw [hw]
    exact .nothing rfl

theorem run_zombie (h : (run p t).state q = .zombie) : t.state q = .zombie := by
  have hne : q ≠ p := by
    rintro rfl
    simp [run] at h
  simpa [run, hne] using h

theorem logs_dispatch (s : St) (p : Slot) : Logs s (dispatch s p) := by
  rw [dispatch]
  split
  · cases logs_waitRound { s with t := run p s.t } p with
    | nothing h => exact .nothing h
    | forked p pid h => exact .forked p pid h
    | exited p pid h => exact .exited p pid h
    | waited p' q hq hz h => exact .waited p' q hq (run_zombie hz) h
    | failed p' hf h => exact .failed p' hf h
  · exact .nothing rfl

theorem logs_userStep (ho : userStep s p a = .ok s') : Logs s s' := by
  cases a with
  | sleep a =>
    cases ho
    exact .nothing rfl
  | fork =>
    simp only [userStep] at ho
    split at ho
    · cases ho
      exact .nothing rfl
    · cases ho
      exact .nothing rfl
  | exit =>
    simp only [userStep] at ho
    split at ho
    · cases ho
    · cases ho
      exact .exited _ _ rfl
  | wait =>
    cases ho
    exact logs_waitRound s p
  | kill pid =>
    cases ho
    exact .nothing rfl
  | _ => cases ho

theorem logs_forkStep (ho : forkStep s p x a = .ok s') : Logs s s' := by
  unfold forkStep at ho
  split at ho
  · cases ho
    exact .nothing rfl
  · cases ho
    exact .nothing rfl
  · cases ho
    exact .nothing rfl
  · cases ho
    exact .nothing rfl
  · cases ho
    exact .nothing rfl
  · cases ho
    exact .forked _ _ rfl
  · cases ho

theorem logs_step (ho : step s e = .ok s') : Logs s s' := by
  unfold step at ho
  split at ho
  · obtain ⟨-, ho⟩ := if_ok ho
    cases ho
    exact logs_dispatch s e.1
  · obtain ⟨-, ho⟩ := if_ok ho
    unfold runningStep at ho
    split at ho
    · cases ho
      exact .nothing rfl
    · cases ho
      exact .nothing rfl
    · split at ho
      · exact logs_userStep ho
      · exact logs_forkStep ho

/-- Every process descends from init by living parents; none sleeps in `wait` beside an exited
child; `wait` returns a pid once; and fails only without children or when killed. -/
theorem process_tree (h : Exec step (fun s e => legal s e) (boot ticks) es s) :
    (∀ p, p ≠ s.t.initproc → live (s.t.state p) = true ∨ s.t.state p = .zombie →
      (∃ q, s.t.parent p = some q ∧ s.t.state q ≠ .unused ∧ s.t.state q ≠ .zombie) ∧
        Relation.ReflTransGen (fun p q => s.t.parent p = some q) p s.t.initproc) ∧
    (∀ p q, s.pc p = .waiting → s.t.state p = .sleeping → s.t.parent q = some p →
      s.t.state q ≠ .zombie) ∧
    (∀ pid, s.hist.countP (Obs.isWait pid) ≤ 1) ∧
    ∀ e s', step s e = .ok s' →
      (∀ p pid, s'.hist = s.hist ++ [.waited p pid] → ∃ q, s.t.pid q = pid ∧
        s.t.parent q = some p ∧ s.t.state q = .zombie ∧ Obs.exited q pid ∈ s.hist) ∧
      (∀ p, s'.hist = s.hist ++ [.waitFailed p] →
        (∀ q, s.t.parent q ≠ some p) ∨ s.t.killed p = true) := by
  have hi := inv_exec h
  refine ⟨?_, ?_, hi.reaped.once, ?_⟩
  · intro p hp hl
    obtain ⟨q, hq⟩ := Option.ne_none_iff_exists'.1 (hi.family.child p hp hl)
    have hlive := (hi.family.older p q hq).1
    refine ⟨⟨q, hq, ?_, ?_⟩, hi.family.reaches hl⟩
    · intro hu
      rw [hu] at hlive
      cases hlive
    · intro hz
      rw [hz] at hlive
      cases hlive
  · intro p q hw hs hq
    have hz := hi.waits p hw
    rw [hs] at hz
    exact (hz.resolve_left nofun).2.2 q hq
  · intro e s' ho
    constructor
    · intro p pid hh
      cases logs_step ho with
      | waited p' q hq hz h' =>
        have he := List.append_cancel_left (hh.symm.trans h')
        simp only [List.cons.injEq, Obs.waited.injEq, and_true] at he
        obtain ⟨rfl, rfl⟩ := he
        exact ⟨q, rfl, hq, hz, hi.reaped.exited q hz⟩
      | nothing h' => simp [hh] at h'
      | forked p' pid' h' => simp [hh] at h'
      | exited p' pid' h' => simp [hh] at h'
      | failed p' hp h' => simp [hh] at h'
    · intro p hh
      cases logs_step ho with
      | failed p' hp h' =>
        have he := List.append_cancel_left (hh.symm.trans h')
        simp only [List.cons.injEq, Obs.waitFailed.injEq, and_true] at he
        rw [he]
        exact hp
      | nothing h' => simp [hh] at h'
      | forked p' pid' h' => simp [hh] at h'
      | exited p' pid' h' => simp [hh] at h'
      | waited p' q hq hz h' => simp [hh] at h'

/-- Init sleeps in `wait`; its child exits without waiting for its own; init gets both. -/
def orphanRun : List (Slot × Act) :=
  [(0, .dispatch), (0, .fork), (0, .memory true), (0, .memory true), (0, .parent), (0, .ready),
   (0, .wait), (1, .dispatch), (1, .fork), (1, .memory true), (1, .memory true), (1, .parent),
   (1, .ready), (2, .dispatch), (2, .exit), (1, .exit), (0, .dispatch), (0, .wait)]

theorem process_tree_orphanRun : ∃ s,
    Exec step (fun s e => legal s e) (boot 0) orphanRun s ∧
      s.hist = [.forked 0 2, .forked 1 3, .exited 2 3, .exited 1 2, .waited 0 2, .waited 0 3] ∧
      ∀ pid, s.hist.countP (Obs.isWait pid) ≤ 1 := by
  obtain ⟨s, hr, hs⟩ := (Option.any_eq_true _ _).1
    (show (runLegal step legal (boot 0) orphanRun).any (fun s => s.hist =
      [.forked 0 2, .forked 1 3, .exited 2 3, .exited 1 2, .waited 0 2, .waited 0 3]) = true
      by decide +kernel)
  have hx := exec_of_runLegal step legal (boot 0) orphanRun hr
  exact ⟨s, hx, of_decide_eq_true hs, (process_tree hx).2.2.1⟩

end Xv6.Proc.Tree
