import Xv6.Sched.Invariant

namespace Xv6.Sched
open Lib Proc Function
set_option autoImplicit true

section Scheduler
variable {s s' : St} {c : Cpu} {y : SPc} {t : Ptable}

theorem Inv.sched_go (h : Inv s) (hspc : s'.spc = update s.spc c y)
    (hproc : s'.proc = update s.proc c y.entered)
    (hpgdir : s'.pgdir = update s.pgdir c y.loaded) (hpc : s'.pc = s.pc)
    (hlock : Tracks (s'.lock .ptable) id (update (held s) c (held s' c)))
    (hw : Wakes s.t s'.t) (hnp : s'.np = s.np) (hy : ∀ q, y ≠ .away q)
    (hclaims : ∀ p, y.claims = some p → ∀ d, d ≠ c → (s.spc d).claims ≠ some p)
    (hentered : ∀ q, (s.spc c).entered = some q → y.entered = some q ∨ s.t.state q ≠ .running)
    (hswitch : ∀ q, y = .switch q → s.t.state q = .running)
    (hleft : ∀ q, y.left = some q → s.t.state q ≠ .running)
    (hchosen : ∀ q, y.chosen = some q → s.t.state q = .runnable) : Inv s' := by
  refine h.cpu_step hspc hproc hpgdir (fun _ q _ _ => congrFun hpc q) hlock hclaims ?_ ?_
    (fun q hq => absurd hq (hy q)) ?_ ?_ ?_ ?_ ?_
  · exact fun q hq _ => (hw.running q).2 hq
  · intro q hq
    rw [hw.running] at hq
    by_cases he : (s.spc c).entered = some q
    · exact .inl ((hentered q he).resolve_right (not_not.2 hq))
    · exact .inr ⟨hq, he⟩
  · exact fun q hq => (hw.running q).2 (hswitch q hq)
  · exact fun q hq hr => hleft q hq ((hw.running q).1 hr)
  · exact fun q hq _ => hw.runnable hq
  · exact fun q hq => hw.runnable (hchosen q hq)
  · rw [hnp]
    exact ⟨fun p n hn => (hw.embryo n).2 (h.forks.embryo p n hn), h.forks.single⟩

theorem Inv.proc_same (h : Inv s) (hy : y.entered = (s.spc c).entered) :
    s.proc = update s.proc c y.entered := by
  rw [hy, ← h.proc, update_eq_self]

theorem Inv.pgdir_same (h : Inv s) (hy : y.loaded = (s.spc c).loaded) :
    s.pgdir = update s.pgdir c y.loaded := by
  rw [hy, ← h.pgdir, update_eq_self]

theorem Inv.sched_next (h : Inv s) (hh : held s' c = held s c)
    (hspc : s'.spc = update s.spc c y)
    (hproc : s'.proc = update s.proc c y.entered)
    (hpgdir : s'.pgdir = update s.pgdir c y.loaded) (hpc : s'.pc = s.pc)
    (hl : s'.lock = s.lock) (hstate : s'.t.state = s.t.state) (hnp : s'.np = s.np)
    (hy : ∀ q, y ≠ .away q)
    (hclaims : ∀ p, y.claims = some p → (s.spc c).claims = some p)
    (hentered : ∀ q, (s.spc c).entered = some q → y.entered = some q ∨ s.t.state q ≠ .running)
    (hswitch : ∀ q, y ≠ .switch q)
    (hleft : ∀ q, y.left = some q → (s.spc c).left = some q)
    (hchosen : ∀ q, y.chosen = some q → (s.spc c).chosen = some q) : Inv s' := by
  refine h.sched_go hspc hproc hpgdir hpc ?_ (wakes_of_state hstate) hnp hy ?_ hentered
    (fun q hq => absurd hq (hswitch q)) (fun q hq => h.left c q (hleft q hq))
    (fun q hq => h.chosen c q (hchosen q hq))
  · rw [hl]
    exact h.lock.keep rfl (congrArg id hh)
  · intro p hp d hd hc
    exact hd (h.unique d c p hc (hclaims p hp))

theorem Inv.sched_lock (h : Inv s) (hx : (s.spc c).claims = none) (hy : y.claims = none)
    (hlock : Tracks (s'.lock .ptable) id (update (held s) c (held s' c)))
    (hspc : s'.spc = update s.spc c y) (hproc : s'.proc = s.proc)
    (hpgdir : s'.pgdir = s.pgdir) (hpc : s'.pc = s.pc) (hw : Wakes s.t s'.t)
    (hnp : s'.np = s.np) : Inv s' := by
  obtain ⟨hxe, hxl, -, -⟩ := SPc.none_of_claims hx
  obtain ⟨hye, hyl, hyleft, hychosen⟩ := SPc.none_of_claims hy
  refine h.sched_go hspc ?_ ?_ hpc hlock hw hnp ?_ ?_ ?_ ?_ ?_ ?_
  · rw [hproc]
    exact h.proc_same (hye.trans hxe.symm)
  · rw [hpgdir]
    exact h.pgdir_same (hyl.trans hxl.symm)
  · rintro q rfl
    cases hy
  · intro p hp
    cases hy.symm.trans hp
  · intro q hq
    cases hxe.symm.trans hq
  · rintro q rfl
    cases hy
  · intro q hq
    cases hyleft.symm.trans hq
  · intro q hq
    cases hychosen.symm.trans hq

theorem Inv.sched_take (h : Inv s) (hx : (s.spc c).claims = none) (hy : y.claims = none)
    (ho : acquire c .ptable s = .ok s') (hh : held (sgoto c y s') c = true) :
    Inv (sgoto c y s') := by
  obtain ⟨hl, rfl⟩ := acquire_ok ho
  refine h.sched_lock hx hy ?_ rfl rfl rfl rfl (wakes_of_state rfl) rfl
  have ht := h.lock
  rw [hl] at ht
  have hto := ht.take (p := c) hh
  rwa [← update_self (f := s.lock) LockId.ptable (some c)] at hto

theorem Inv.sched_drop (h : Inv s) (hx : (s.spc c).claims = none) (hy : y.claims = none)
    (ho : release c .ptable s = .ok s') (hh : held (sgoto c y s') c = false) :
    Inv (sgoto c y s') := by
  obtain ⟨hl, rfl⟩ := release_ok ho
  refine h.sched_lock hx hy ?_ rfl rfl rfl rfl (wakes_of_state rfl) rfl
  have hto := h.lock.drop (p := c) rfl ((h.lock c).1 hl) hh
  rwa [← update_self (f := s.lock) LockId.ptable none] at hto

theorem held_sgoto (s : St) (c : Cpu) (y : SPc) : held (sgoto c y s) c = y.holds s.pc := by
  simp [held, sgoto]

theorem held_claims (hx : s.spc c = y) (hy : y.claims = some p) (ha : ∀ q, y ≠ .away q) :
    held s c = true := by
  unfold held
  rw [hx]
  cases y <;> first | rfl | exact absurd rfl (ha _) | cases hy

theorem Inv.intr (h : Inv s) (hx : s.spc c = .intr ch w)
    (ho : Sched.wakeStep c ch w (intrNext c ch) s = .ok s') : Inv s' := by
  have hclaims : (s.spc c).claims = none := by
    rw [hx]
    rfl
  have hheld : held s c = w.holds := by
    unfold held
    rw [hx]
    rfl
  cases w with
  | lock =>
    obtain ⟨s₁, h₁, he⟩ := bind_ok ho
    cases he
    exact h.sched_take hclaims rfl h₁ (held_sgoto ..)
  | scan j =>
    simp only [Sched.wakeStep] at ho
    split at ho
    · next hj =>
      cases ho
      refine h.sched_lock hclaims rfl ?_ rfl rfl rfl rfl (wakes_wakeOne _ _ _) rfl
      apply h.lock.keep rfl
      rw [hheld, intrNext, held_sgoto]
      rfl
    · cases ho
      refine h.sched_lock hclaims rfl ?_ rfl rfl rfl rfl (wakes_of_state rfl) rfl
      apply h.lock.keep rfl
      rw [hheld, intrNext, held_sgoto]
      rfl
  | unlock =>
    obtain ⟨s₁, h₁, he⟩ := bind_ok ho
    cases he
    exact h.sched_drop hclaims rfl h₁ (held_sgoto ..)

/-- The process that a scheduler chooses is on no CPU. -/
theorem Inv.fresh (h : Inv s) (hh : held s c = true) (hp : s.t.state p = .runnable)
    (hd : d ≠ c) : (s.spc d).claims ≠ some p := by
  intro hclaims
  rcases h.claims hclaims with hl | hr
  · rw [(h.lock c).2 hh] at hl
    exact hd (Option.some.inj hl).symm
  · cases hp.symm.trans hr

theorem Inv.mark (h : Inv s) (hx : s.spc c = .mark p) :
    Inv (sgoto c (.switch p) { s with t := setState p .running s.t }) := by
  have hp := h.chosen c p (by rw [hx]; rfl)
  have hh : held s c = true := by
    unfold held
    rw [hx]
    rfl
  refine h.cpu_step (y := .switch p) rfl (h.proc_same (by rw [hx]; rfl))
    (h.pgdir_same (by rw [hx]; rfl)) (fun _ _ _ _ => rfl) ?_ ?_ ?_ ?_ nofun ?_ nofun ?_ nofun ?_
  · apply h.lock.keep rfl
    rw [held_sgoto, hh]
    rfl
  · intro q hq d hd
    cases hq
    exact h.fresh hh hp hd
  · intro q hq _
    by_cases hqp : q = p
    · rw [hqp]
      exact setState_self ..
    · exact (setState_of_ne hqp ..).trans hq
  · intro q hq
    by_cases hqp : q = p
    · exact .inl (congrArg some hqp.symm)
    · refine .inr ⟨(setState_of_ne hqp ..).symm.trans hq, ?_⟩
      rw [hx]
      exact fun he => hqp (Option.some.inj he).symm
  · intro q hq
    cases hq
    exact setState_self ..
  · intro q hq hne
    have hqp : q ≠ p := by
      rintro rfl
      exact hne rfl
    exact (setState_of_ne hqp ..).trans hq
  · refine ⟨fun q n hn => ?_, h.forks.single⟩
    have he := h.forks.embryo q n hn
    have hnp : n ≠ p := by
      rintro rfl
      cases hp.symm.trans he
    exact (setState_of_ne hnp ..).trans he

theorem Inv.enter (h : Inv s) (hx : s.spc c = .switch p) :
    Inv (goto p (.resume (s.context p)) (sgoto c (.away p) s)) := by
  have hr := h.switch c p hx
  refine h.cpu_step (y := .away p) rfl (h.proc_same (by rw [hx]; rfl))
    (h.pgdir_same (by rw [hx]; rfl)) ?_ ?_ ?_ (fun q hq _ => hq) ?_ ?_ nofun nofun
    (fun q hq _ => hq) nofun h.forks
  · intro d q hd hq
    have hqp : q ≠ p := by
      rintro rfl
      exact hd (h.unique d c q (by rw [hq]; rfl) (by rw [hx]; rfl))
    exact update_of_ne hqp ..
  · apply h.lock.keep rfl
    unfold held
    rw [hx]
    simp [goto, sgoto, SPc.holds, Pc.holds]
  · intro q hq d hd hclaims
    exact hd (h.unique d c q hclaims (by rw [hx]; exact hq))
  · intro q hq
    by_cases hqp : q = p
    · exact .inl (congrArg some hqp.symm)
    · refine .inr ⟨hq, ?_⟩
      rw [hx]
      exact fun he => hqp (Option.some.inj he).symm
  · intro q hq _
    cases hq
    exact hr

theorem Inv.unchosen (h : Inv s) (hx : s.spc c = .scan) (ht : t.state = s.t.state) :
    Inv (sgoto c .unlock { s with t := t }) := by
  have hh : held s c = true := by
    unfold held
    rw [hx]
    rfl
  refine h.sched_lock (by rw [hx]; rfl) rfl ?_ rfl rfl rfl rfl (wakes_of_state ht) rfl
  apply h.lock.keep rfl
  rw [held_sgoto, hh]
  rfl

theorem Inv.choose (h : Inv s) (hx : s.spc c = .scan) (ht : t.state = s.t.state)
    (hp : t.state p = .runnable) : Inv (sgoto c (.enter p) { s with t := { t with
      lastScheduled := update t.lastScheduled p t.ticks } }) := by
  have hh : held s c = true := by
    unfold held
    rw [hx]
    rfl
  rw [ht] at hp
  refine h.sched_go (y := .enter p) rfl (h.proc_same (by rw [hx]; rfl))
    (h.pgdir_same (by rw [hx]; rfl)) rfl ?_ (wakes_of_state ht) rfl nofun ?_ ?_ nofun nofun ?_
  · apply h.lock.keep rfl
    rw [held_sgoto, hh]
    rfl
  · intro q hq d hd
    cases hq
    exact h.fresh hh hp hd
  · rw [hx]
    exact nofun
  · intro q hq
    cases hq
    exact hp

theorem Inv.accounted (h : Inv s) (hx : s.spc c = .account p) (ht : t.state = s.t.state) :
    Inv (sgoto c (.clear p) { s with t := t }) := by
  refine h.sched_next (y := .clear p) ?_ rfl (h.proc_same (by rw [hx]; rfl))
    (h.pgdir_same (by rw [hx]; rfl)) rfl rfl ht rfl nofun ?_ ?_ nofun ?_ nofun
  · rw [held_sgoto, held_claims hx rfl nofun]
    rfl
  · exact fun q hq => by rw [hx]; exact hq
  · exact fun q hq => .inl (by rw [hx] at hq; exact hq)
  · exact fun q hq => by rw [hx]; exact hq

theorem Inv.schedStep (h : Inv s) (ho : schedStep c s (s.spc c) a = .ok s') : Inv s' := by
  unfold Sched.schedStep at ho
  split at ho
  · next he =>
    obtain ⟨s₁, h₁, hs⟩ := bind_ok ho
    cases hs
    exact h.sched_take (by rw [he]; rfl) rfl h₁ (held_sgoto ..)
  · next ch he =>
    cases ho
    refine h.sched_lock (by rw [he]; rfl) rfl ?_ rfl rfl rfl rfl (wakes_of_state rfl) rfl
    apply h.lock.keep rfl
    rw [held_sgoto]
    unfold held
    rw [he]
    rfl
  · next he =>
    dsimp only at ho
    split at ho
    · cases ho
      exact h.unchosen he (charge_state s.t)
    · next p hp =>
      cases ho
      exact h.choose he (charge_state s.t) (choose_some hp)
  · next p he =>
    cases ho
    refine h.sched_next (y := .load p) ?_ rfl rfl (h.pgdir_same (by rw [he]; rfl)) rfl rfl rfl rfl
      nofun ?_ ?_ nofun nofun ?_
    · rw [held_sgoto, held_claims he rfl nofun]
      rfl
    · exact fun q hq => by rw [he]; exact hq
    · rw [he]
      exact nofun
    · exact fun q hq => by rw [he]; exact hq
  · next p he =>
    cases ho
    refine h.sched_next (y := .mark p) ?_ rfl (h.proc_same (by rw [he]; rfl)) rfl rfl rfl rfl rfl
      nofun ?_ ?_ nofun nofun ?_
    · rw [held_sgoto, held_claims he rfl nofun]
      rfl
    · exact fun q hq => by rw [he]; exact hq
    · exact fun q hq => .inl (by rw [he] at hq; exact hq)
    · exact fun q hq => by rw [he]; exact hq
  · next p he =>
    cases ho
    exact h.mark he
  · next p he =>
    cases ho
    exact h.enter he
  · next p he =>
    cases ho
    refine h.sched_next (y := .account p) ?_ rfl (h.proc_same (by rw [he]; rfl)) rfl rfl rfl rfl rfl
      nofun ?_ ?_ nofun ?_ nofun
    · rw [held_sgoto, held_claims he rfl nofun]
      rfl
    · exact fun q hq => by rw [he]; exact hq
    · exact fun q hq => .inl (by rw [he] at hq; exact hq)
    · exact fun q hq => by rw [he]; exact hq
  · next p he =>
    cases ho
    exact h.accounted he rfl
  · next p he =>
    cases ho
    refine h.sched_next (y := .unlock) ?_ rfl rfl (h.pgdir_same (by rw [he]; rfl)) rfl rfl rfl rfl
      nofun nofun ?_ nofun nofun nofun
    · rw [held_sgoto, held_claims he rfl nofun]
      rfl
    · rw [he]
      intro q hq
      cases hq
      exact .inr (h.left c p (by rw [he]; rfl))
  · next he =>
    obtain ⟨s₁, h₁, hs⟩ := bind_ok ho
    cases hs
    exact h.sched_drop (by rw [he]; rfl) rfl h₁ (held_sgoto ..)
  · next ch w he => exact h.intr he ho
  · cases ho

end Scheduler

theorem Inv.step (h : Inv s) (ho : step s e = .ok s') : Inv s' := by
  unfold Sched.step at ho
  split at ho
  · next p hc => exact h.move hc rfl (procStep_move rfl ho)
  · exact h.schedStep ho

theorem inv_exec (h : Exec step (fun _ _ => True) (boot ticks) es s) : Inv s :=
  h.invariant (inv_boot ticks) fun _ _ _ hi _ ho => hi.step ho

/-- The child that the next step of CPU `c` frees. -/
def frees (s : St) (c : Cpu) : Option Slot :=
  match s.spc c with
  | .away p =>
    if s.pc p = .waitScan then (waitScan s.t p (List.finRange nProc) false).1 else none
  | _ => none

/-- While `ptable.lock` is free, the RUNNING processes are those of the CPUs, one each. A context is
entered, and a process freed, only when no CPU executes it or has its page directory. -/
theorem one_cpu_per_process (h : Exec step (fun _ _ => True) (boot ticks) es s) :
    (s.lock .ptable = none →
      (∀ p, s.t.state p = .running ↔ ∃! c, s.proc c = some p) ∧
      (∀ c d p, s.proc c = some p → s.proc d = some p → c = d) ∧
      ∀ c p, s.proc c = some p → s.t.state p = .running) ∧
    (∀ c p, s.spc c = .switch p → ∀ d, s.spc d ≠ .away p) ∧
    ∀ c q, frees s c = some q → ∀ d, s.spc d ≠ .away q ∧ s.pgdir d ≠ some q := by
  have hi := inv_exec h
  have hproc (c : Cpu) (p : Slot) (hc : s.proc c = some p) : (s.spc c).claims = some p :=
    SPc.claims_of_entered (hi.proc c ▸ hc)
  refine ⟨fun hl => ?_, ?_, ?_⟩
  · have hstate (c : Cpu) (p : Slot) (hc : s.proc c = some p) : s.t.state p = .running := by
      rcases hi.claims (hproc c p hc) with hl' | hr
      · cases hl.symm.trans hl'
      · exact hr
    have hone (c d : Cpu) (p : Slot) (hc : s.proc c = some p) (hd : s.proc d = some p) : c = d :=
      hi.unique c d p (hproc c p hc) (hproc d p hd)
    refine ⟨fun p => ⟨fun hp => ?_, fun ⟨c, hc, _⟩ => hstate c p hc⟩, hone, hstate⟩
    obtain ⟨c, hc⟩ := hi.running p hp
    rw [← hi.proc] at hc
    exact ⟨c, hc, fun d hd => hone d c p hd hc⟩
  · intro c p hc d hd
    have hdc := hi.unique d c p (by rw [hd]; rfl) (by rw [hc]; rfl)
    rw [hdc, hc] at hd
    cases hd
  · intro c q hf
    unfold frees at hf
    split at hf
    · next p hc =>
      obtain ⟨hp, hf⟩ := Option.ite_none_right_eq_some.1 hf
      have hz : s.t.state q = .zombie := (waitScan_some (k := _) (Prod.ext hf rfl)).2
      have hclaims (d : Cpu) : (s.spc d).claims ≠ some q := by
        intro hd
        have hl : s.lock .ptable = some c := (hi.lock c).2 (by rw [held_away hc, hp]; rfl)
        rcases hi.claims hd with hl' | hr
        · obtain rfl := Option.some.inj (hl.symm.trans hl')
          rw [hc] at hd
          obtain rfl := Option.some.inj hd
          cases hz.symm.trans (hi.settled c p hc (by rw [hp]; rfl))
        · cases hz.symm.trans hr
      intro d
      refine ⟨fun hd => hclaims d (by rw [hd]; rfl), fun hd => hclaims d ?_⟩
      exact SPc.claims_of_loaded (hi.pgdir d ▸ hd)
    · cases hf

def twoCpuRun : List (Cpu × Act) :=
  List.replicate 7 (0, .go) ++ [(0, .call .fork), (0, .go), (0, .go), (0, .go), (0, .memory true),
    (0, .go), (0, .go), (0, .go)] ++ List.replicate 7 (1, .go)

theorem one_cpu_per_process_twoCpuRun : ∃ s,
    Exec step (fun _ _ => True) (boot 0) twoCpuRun s ∧ s.lock .ptable = none ∧
      s.proc 0 = some 0 ∧ s.proc 1 = some 1 ∧ s.t.state 0 = .running ∧ s.t.state 1 = .running := by
  obtain ⟨s, hr, hs⟩ := (Option.any_eq_true _ _).1
    (show (runLegal step (fun _ _ => true) (boot 0) twoCpuRun).any (fun s =>
      s.lock .ptable = none ∧ s.proc 0 = some 0 ∧ s.proc 1 = some 1) = true by decide +kernel)
  obtain ⟨hl, h0, h1⟩ := of_decide_eq_true hs
  have hx : Exec step (fun _ _ => True) (boot 0) twoCpuRun s :=
    (exec_of_runLegal step (fun _ _ => true) (boot 0) twoCpuRun hr).mono fun _ _ _ => trivial
  have hone := (one_cpu_per_process hx).1 hl
  exact ⟨s, hx, hl, h0, h1, hone.2.2 0 0 h0, hone.2.2 1 1 h1⟩

end Xv6.Sched
