import Xv6.Sched.Cpus

namespace Xv6.Sched
open Lib Proc Function
set_option autoImplicit true

/-- Where process `p` is: at its program counter, or its saved context. -/
def place (s : St) (p : Slot) : Pc :=
  if s.pc p = .off then .resume (s.context p) else s.pc p

def sleeping (s : St) (ch : Chan) (p : Slot) : Prop :=
  s.t.state p = .sleeping ∧ s.t.chan p = some ch

def Pc.scans : Pc → Option (Chan × Nat)
  | .wake ch (.scan j) _ => some (ch, j)
  | _ => none

/-- The channel of the `wakeup` loop that a CPU is in, and its next slot. -/
def SPc.scans (pc : Slot → Pc) : SPc → Option (Chan × Nat)
  | .away p => (pc p).scans
  | .intr ch (.scan j) => some (ch, j)
  | _ => none

def alive : ProcState → Bool
  | .sleeping => true
  | .runnable => true
  | .running => true
  | _ => false

/-- The process at this place has been started and has not exited. -/
def Pc.started : Pc → Bool
  | .resume .forkret => false
  | .resume .exit => false
  | .sched .exit => false
  | _ => true

/-- A step of CPU `c` moves its process along `Flow`, or enters or leaves one; the others stay, and
none goes to sleep. -/
structure Tick (c : Cpu) (a : Act) (s s' : St) : Prop where
  spc : ∀ d, d ≠ c → s'.spc d = s.spc d
  flow : ∀ p, s.spc c = .away p → ∃ t, Flow a (s.pc p) t (place s' p) ∧
    t.Applies c s.lock s'.lock
  stays : ∀ p, s.spc c = .away p →
    s'.spc c = .away p ∧ s'.pc p ≠ .off ∨ s'.spc c = .back p ∧ s'.pc p = .off
  lock : (∀ p, s.spc c ≠ .away p) → ∀ b, s'.lock (.other b) = s.lock (.other b)
  other : ∀ q, s.spc c ≠ .away q →
    s'.pc q = s.pc q ∧ s'.spc c ≠ .away q ∧
      (s'.context q = s.context q ∨ s.t.state q = .unused ∧ s'.context q = .forkret) ∨
    s.spc c = .switch q ∧ s'.spc c = .away q ∧ s'.pc q = .resume (s.context q)
  lives : ∀ q, s.spc c ≠ .away q → alive (s.t.state q) = true → alive (s'.t.state q) = true
  parked : ∀ p, s.spc c = .away p → (place s' p).started = true →
    alive (s'.t.state p) = true ∨ (∃ k, s.pc p = .sched k) ∧ s'.t.state p = s.t.state p
  chan : ∀ q, s.spc c ≠ .away q → s'.t.chan q = s.t.chan q
  sleep : ∀ q ch, sleeping s' ch q → sleeping s ch q ∨
    s.spc c = .away q ∧ (∃ ch' l, s.pc q = .sleepState ch' l) ∧ s.t.chan q = some ch
  noted : ∀ q ch l, s.spc c = .away q → s'.pc q = .sleepState ch l → s'.t.chan q = some ch
  scan : ∀ ch j, (s'.spc c).scans s'.pc = some (ch, j + 1) →
    (s.spc c).scans s.pc = some (ch, j) ∧ ∀ i : Slot, i.val = j → ¬sleeping s' ch i

theorem place_eq (h : s.pc p = x) (hx : x ≠ .off) : place s p = x := by
  rw [place, h, if_neg hx]

theorem place_off (h : s.pc p = .off) : place s p = .resume (s.context p) := by
  rw [place, if_pos h]

/-- The other processes stay alive, keep their channels, and do not go to sleep. -/
def Quiet (p : Slot) (t t' : Ptable) : Prop :=
  ∀ q, q ≠ p → (alive (t.state q) = true → alive (t'.state q) = true) ∧
    (t'.state q = .sleeping → t.state q = .sleeping) ∧ t'.chan q = t.chan q

theorem Keeps.quiet (h : Keeps p t t') (hc : ∀ q, q ≠ p → t'.chan q = t.chan q) :
    Quiet p t t' := by
  intro q hq
  refine ⟨?_, ?_, hc q hq⟩
  · rcases h q hq with he | ⟨-, hr⟩ | ⟨hz, -⟩
    · rw [he]
      exact id
    · rw [hr]
      exact fun _ => rfl
    · rw [hz]
      nofun
  · rcases h q hq with he | ⟨hs, -⟩ | ⟨-, hu⟩
    · rw [he]
      exact id
    · exact fun _ => hs
    · rw [hu]
      nofun

section Proc
variable {s s' : St} {c : Cpu} {p : Slot} {y : Pc}

theorem Tick.proc (hc : s.spc c = .away p) (hp : s.pc p = x) (hf : Flow a x t y) (hy : y ≠ .off)
    (hl : t.Applies c s.lock s'.lock) (hspc : s'.spc = s.spc)
    (hpc : s'.pc = update s.pc p y)
    (hctx : ∀ q, s'.context q = s.context q ∨ s.t.state q = .unused ∧ s'.context q = .forkret)
    (hq : Quiet p s.t s'.t) (hparked : y.started = true → alive (s'.t.state p) = true)
    (hsleep : s'.t.state p = .sleeping →
      (∃ ch l, x = .sleepState ch l) ∧ s'.t.chan p = s.t.chan p)
    (hnoted : ∀ ch l, y = .sleepState ch l → s'.t.chan p = some ch)
    (hscan : ∀ ch j, y.scans = some (ch, j + 1) →
      x.scans = some (ch, j) ∧ ∀ i : Slot, i.val = j → ¬sleeping s' ch i) :
    Tick c a s s' := by
  subst hp
  have hself : s'.pc p = y := by
    rw [hpc, update_self]
  have hspc' : s'.spc c = .away p := by
    rw [hspc, hc]
  have hne (q : Slot) (h : s.spc c ≠ .away q) : q ≠ p := by
    rintro rfl
    exact h hc
  constructor
  · intro d _
    rw [hspc]
  · intro q hq
    cases hc.symm.trans hq
    rw [place_eq hself hy]
    exact ⟨t, hf, hl⟩
  · intro q hq
    cases hc.symm.trans hq
    rw [hself]
    exact .inl ⟨hspc', hy⟩
  · exact fun h => absurd hc (h p)
  · intro q h
    rw [hspc, hpc, update_of_ne (hne q h)]
    exact .inl ⟨rfl, h, hctx q⟩
  · exact fun q h => (hq q (hne q h)).1
  · intro q h hs
    cases hc.symm.trans h
    rw [place_eq hself hy] at hs
    exact .inl (hparked hs)
  · exact fun q h => (hq q (hne q h)).2.2
  · intro q ch hs
    by_cases h : q = p
    · subst h
      obtain ⟨hx, hch⟩ := hsleep hs.1
      exact .inr ⟨hc, hx, hch.symm.trans hs.2⟩
    · obtain ⟨-, hst, hch⟩ := hq q h
      exact .inl ⟨hst hs.1, hch.symm.trans hs.2⟩
  · intro q ch l h hs
    cases hc.symm.trans h
    rw [hself] at hs
    exact hnoted ch l hs
  · intro ch j hs
    rw [hspc'] at hs
    rw [hc]
    simp only [SPc.scans, hself] at hs ⊢
    exact hscan ch j hs

theorem Tick.act (hc : s.spc c = .away p) (hp : s.pc p = x) (hf : Flow a x t y) (hy : y.plain = true)
    (hl : t.Applies c s.lock s'.lock) (hspc : s'.spc = s.spc)
    (hpc : s'.pc = update s.pc p y) (hctx : s'.context = s.context)
    (hq : Quiet p s.t s'.t) (hstate : s'.t.state p = .running) : Tick c a s s' := by
  refine .proc hc hp hf ?_ hl hspc hpc (fun q => .inl (congrFun hctx q)) hq (fun _ => ?_)
    (fun h => ?_) ?_ ?_
  · rintro rfl
    cases hy
  · rw [hstate]
    rfl
  · cases hstate.symm.trans h
  · rintro ch l rfl
    cases hy
  · intro ch j hj
    unfold Pc.scans at hj
    split at hj
    · cases hj
      cases hy
    · cases hj

theorem quiet_rfl : Quiet p t t :=
  fun _ _ => ⟨id, id, rfl⟩

theorem Tick.go (h : Inv s) (hc : s.spc c = .away p) (hp : s.pc p = x) (hs : x.settled = true)
    (hf : Flow a x .keep y) (hy : y.plain = true) : Tick c a s (goto p y s) :=
  .act hc hp hf hy (fun _ => rfl) rfl rfl rfl quiet_rfl (h.running_at hc hp hs)

theorem Tick.acquired (h : Inv s) (hc : s.spc c = .away p) (hp : s.pc p = x)
    (hs : x.settled = true) (hf : Flow a x t y) (hy : y.plain = true)
    (ho : Sched.acquire c l s = .ok s') (hl : t.Applies c s.lock (update s.lock l (some c))) :
    Tick c a s (goto p y s') := by
  obtain ⟨-, rfl⟩ := acquire_ok ho
  exact .act hc hp hf hy hl rfl rfl rfl quiet_rfl (h.running_at hc hp hs)

theorem Tick.released (h : Inv s) (hc : s.spc c = .away p) (hp : s.pc p = x)
    (hs : x.settled = true) (hf : Flow a x t y) (hy : y.plain = true)
    (ho : Sched.release c l s = .ok s') (hl : t.Applies c s.lock (update s.lock l none)) :
    Tick c a s (goto p y s') := by
  obtain ⟨-, rfl⟩ := release_ok ho
  exact .act hc hp hf hy hl rfl rfl rfl quiet_rfl (h.running_at hc hp hs)

theorem applies_ptable (c : Cpu) (lock : LockId → Option Cpu) (o : Option Cpu) :
    Turn.keep.Applies c lock (update lock .ptable o) := by
  intro b
  simp

theorem wakeOne_chan (ch : Option Chan) (t : Ptable) (q : Slot) :
    (wakeOne ch t q).chan = t.chan := by
  unfold wakeOne
  split <;> rfl

theorem wakeOne_awake (ch : Chan) (t : Ptable) (q : Slot)
    (hs : (wakeOne (some ch) t q).state q = .sleeping) : t.chan q ≠ some ch := by
  unfold wakeOne at hs
  split at hs
  · rw [setState_self] at hs
    cases hs
  · next hn => exact fun hc => hn ⟨hs, hc⟩

theorem not_sleeping_wakeOne (hj : j < nProc) (ht : s'.t = wakeOne (some ch) t ⟨j, hj⟩)
    (hi : i.val = j) : ¬sleeping s' ch i := by
  intro hs
  obtain rfl : i = ⟨j, hj⟩ := Fin.ext hi
  rw [sleeping, ht] at hs
  apply wakeOne_awake ch t ⟨j, hj⟩ hs.1
  rw [← wakeOne_chan (some ch) t ⟨j, hj⟩]
  exact hs.2

theorem tick_wake (h : Inv s) (hc : s.spc c = .away p) (hp : s.pc p = .wake ch (.scan j) x)
    (hj : j < nProc) :
    Tick c .go s (goto p (.wake ch (.scan (j + 1)) x) { s with
      t := wakeOne (some ch) s.t ⟨j, hj⟩ }) := by
  have hk := keeps_wakeOne p (some ch) s.t ⟨j, hj⟩
  have hr := ((wakes_wakeOne (some ch) s.t ⟨j, hj⟩).running p).2 (h.running_at hc hp rfl)
  refine .proc hc hp (.wakeScan hj) nofun
    (fun _ => rfl) rfl rfl (fun _ => .inl rfl) (hk.quiet fun q _ => congrFun (wakeOne_chan ..) q)
    (fun _ => congrArg alive hr) (fun hst => by cases hr.symm.trans hst) nofun ?_
  intro ch' j' hj'
  cases hj'
  exact ⟨rfl, fun i => not_sleeping_wakeOne hj rfl⟩

theorem Tick.leave (hc : s.spc c = .away p) (hp : s.pc p = .sched k) (ht : s'.t = s.t)
    (hl : s'.lock = s.lock) (hspc : s'.spc = update s.spc c (.back p))
    (hpc : s'.pc = update s.pc p .off)
    (hctx : s'.context = update s.context p k) : Tick c .go s s' := by
  have hself : s'.pc p = .off := by
    rw [hpc, update_self]
  have hspc' : s'.spc c = .back p := by
    rw [hspc, update_self]
  have hne (q : Slot) (h : s.spc c ≠ .away q) : q ≠ p := by
    rintro rfl
    exact h hc
  constructor
  · intro d hd
    rw [hspc, update_of_ne hd]
  · intro q hq
    cases hc.symm.trans hq
    rw [place_off hself, hctx, update_self, hp, hl]
    exact ⟨.keep, .sched, fun _ => rfl⟩
  · intro q hq
    cases hc.symm.trans hq
    exact .inr ⟨hspc', hself⟩
  · exact fun h => absurd hc (h p)
  · intro q h
    rw [hpc, hspc', hctx, update_of_ne (hne q h), update_of_ne (hne q h)]
    exact .inl ⟨rfl, nofun, .inl rfl⟩
  · rw [ht]
    exact fun _ _ => id
  · intro q hq _
    cases hc.symm.trans hq
    rw [ht]
    exact .inr ⟨⟨k, hp⟩, rfl⟩
  · rw [ht]
    exact fun _ _ => rfl
  · intro q ch hs
    unfold sleeping at hs
    rw [ht] at hs
    exact .inl hs
  · intro q ch l hq hs
    cases hc.symm.trans hq
    cases hself.symm.trans hs
  · intro ch j hs
    rw [hspc'] at hs
    cases hs

theorem tick_fork_set (h : Inv s) (hc : s.spc c = .away p) (hp : s.pc p = x)
    (hs : x.settled = true) (hf : Flow a x .keep y) (hy : y.plain = true) (hn : s.np p = some n)
    (hz : z ≠ .sleeping) :
    Tick c a s (goto p y { s with t := setState n z s.t, np := update s.np p none }) := by
  have he := h.forks.embryo p n hn
  refine .act hc hp hf hy (fun _ => rfl) rfl rfl rfl (fun q _ => ?_) ?_
  · dsimp only [goto]
    by_cases hq : q = n
    · subst hq
      rw [setState_self, he]
      exact ⟨nofun, fun h => absurd h hz, rfl⟩
    · rw [setState_of_ne hq]
      exact ⟨id, id, rfl⟩
  · have hr := h.running_at hc hp hs
    have hpn : p ≠ n := by
      rintro rfl
      cases he.symm.trans hr
    exact (setState_of_ne hpn ..).trans hr

theorem tick_alloc (h : Inv s) (hc : s.spc c = .away p) (hp : s.pc p = .forkAlloc)
    (ha : allocSlot s.t = some (n, t)) :
    Tick c .go s (goto p (.unlock .forkBody) { s with
      t := t
      np := update s.np p (some n)
      context := update s.context n .forkret }) := by
  obtain ⟨hu, hstate, -, -, -, hchan, -⟩ := allocSlot_some ha
  have hr := h.running_at hc hp rfl
  have hpn : p ≠ n := by
    rintro rfl
    cases hu.symm.trans hr
  have hr' : t.state p = .running := by
    rw [hstate, update_of_ne hpn, hr]
  refine .proc hc hp .forkAlloc nofun (fun _ => rfl) rfl rfl
    (fun q => ?_) (fun q _ => ⟨?_, ?_, congrFun hchan q⟩) (fun _ => congrArg alive hr')
    (fun hst => by cases hr'.symm.trans hst) nofun nofun
  · by_cases hq : q = n
    · subst hq
      exact .inr ⟨hu, update_self ..⟩
    · exact .inl (update_of_ne hq ..)
  · dsimp only [goto]
    rw [hstate]
    grind [alive]
  · dsimp only [goto]
    rw [hstate]
    grind

theorem Move.tick (h : Inv s) (hc : s.spc c = .away p) (hp : s.pc p = x) (hm : Move c p s a x s') :
    Tick c a s s' := by
  cases hm with
  | go hf hy hs => exact .go h hc hp hs hf hy
  | take hf hy hs _ ho => exact .acquired h hc hp hs hf hy ho (applies_ptable _ _ _)
  | drop hf hy hs _ _ ho => exact .released h hc hp hs hf hy ho (applies_ptable _ _ _)
  | takeOther hf hy hs _ ho =>
    refine .acquired h hc hp hs hf hy ho ⟨(acquire_ok ho).1, fun b' => ?_⟩
    simp [update_apply]
  | dropOther hf hy hs _ ho =>
    refine .released h hc hp hs hf hy ho ⟨(release_ok ho).1, fun b' => ?_⟩
    simp [update_apply]
  | effect hf hy hs _ _ hk hchan hr =>
    exact .act hc hp hf hy (fun _ => rfl) rfl rfl rfl (hk.quiet hchan)
      (hr (h.running_at hc hp hs))
  | child hf hy hs _ hn _ hz => exact tick_fork_set h hc hp hs hf hy hn hz
  | alloc ha => exact tick_alloc h hc hp ha
  | wake hj => exact tick_wake h hc hp hj
  | @chan ch l =>
    have hr := h.running_at hc hp rfl
    refine .proc hc hp .sleepChan nofun (fun _ => rfl) rfl
      rfl (fun _ => .inl rfl) (fun q hq => ⟨id, id, update_of_ne hq ..⟩)
      (fun _ => congrArg alive hr) (fun hst => by cases hr.symm.trans hst) ?_ nofun
    intro ch' l' he
    cases he
    exact update_self ..
  | @sleep ch l =>
    exact .proc hc hp .sleepState nofun (fun _ => rfl) rfl
      rfl (fun _ => .inl rfl) ((keeps_setState p _ _).quiet fun _ _ => rfl)
      (fun _ => congrArg alive (setState_self ..)) (fun _ => ⟨⟨ch, l, rfl⟩, rfl⟩) nofun nofun
  | @yield x =>
    exact .proc hc hp .yieldState nofun (fun _ => rfl)
      rfl rfl (fun _ => .inl rfl) ((keeps_setState p _ _).quiet fun _ _ => rfl)
      (fun _ => congrArg alive (setState_self ..))
      (fun hst => by cases (setState_self ..).symm.trans hst) nofun nofun
  | exit =>
    exact .proc hc hp .exitScan nofun (fun _ => rfl) rfl rfl
      (fun _ => .inl rfl) ((keeps_exit p s.t).quiet fun q _ => congrFun (exit_chan p s.t) q) nofun
      (fun hst => by cases (exit_state_self p s.t).symm.trans hst) nofun nofun
  | sched => exact .leave hc hp rfl rfl rfl rfl rfl

end Proc

section Scheduler
variable {s s' : St} {c : Cpu} {y : SPc}

theorem Tick.scheduler (hx : ∀ p, s.spc c ≠ .away p) (hy : ∀ p, y ≠ .away p)
    (hspc : s'.spc = update s.spc c y) (hpc : s'.pc = s.pc)
    (hctx : s'.context = s.context) (hl : ∀ b, s'.lock (.other b) = s.lock (.other b))
    (hchan : s'.t.chan = s.t.chan)
    (halive : ∀ q, alive (s.t.state q) = true → alive (s'.t.state q) = true)
    (hsleep : ∀ q, s'.t.state q = .sleeping → s.t.state q = .sleeping)
    (hscan : ∀ ch j, y = .intr ch (.scan (j + 1)) →
      s.spc c = .intr ch (.scan j) ∧ ∀ i : Slot, i.val = j → ¬sleeping s' ch i) :
    Tick c a s s' := by
  have hself : s'.spc c = y := by
    rw [hspc, update_self]
  constructor
  · intro d hd
    rw [hspc, update_of_ne hd]
  · exact fun p hp => absurd hp (hx p)
  · exact fun p hp => absurd hp (hx p)
  · exact fun _ => hl
  · intro q _
    rw [hpc, hself, hctx]
    exact .inl ⟨rfl, hy q, .inl rfl⟩
  · exact fun q _ => halive q
  · exact fun p hp => absurd hp (hx p)
  · exact fun q _ => congrFun hchan q
  · intro q ch hs
    refine .inl ⟨hsleep q hs.1, ?_⟩
    rw [← hchan]
    exact hs.2
  · exact fun q ch l hq => absurd hq (hx q)
  · intro ch j hs
    rw [hself] at hs
    unfold SPc.scans at hs
    split at hs
    · next p => exact absurd rfl (hy p)
    · cases hs
      obtain ⟨hc, hi⟩ := hscan ch j rfl
      rw [hc]
      exact ⟨rfl, hi⟩
    · cases hs

theorem Tick.scheduler_wakes (hx : ∀ p, s.spc c ≠ .away p) (hy : ∀ p, y ≠ .away p)
    (hspc : s'.spc = update s.spc c y) (hpc : s'.pc = s.pc)
    (hctx : s'.context = s.context) (hl : ∀ b, s'.lock (.other b) = s.lock (.other b))
    (hchan : s'.t.chan = s.t.chan) (hw : Wakes s.t s'.t)
    (hscan : ∀ ch j, y = .intr ch (.scan (j + 1)) →
      s.spc c = .intr ch (.scan j) ∧ ∀ i : Slot, i.val = j → ¬sleeping s' ch i) :
    Tick c a s s' := by
  refine .scheduler hx hy hspc hpc hctx hl hchan (fun q => ?_) (fun q hs => ?_) hscan
  · rcases hw q with he | ⟨-, hr⟩
    · rw [he]
      exact id
    · rw [hr]
      exact fun _ => rfl
  · rcases hw q with he | ⟨h, -⟩
    · exact he ▸ hs
    · exact h

/-- The scheduler neither enters a process nor is in a loop of `wakeup`. -/
def SPc.plain : SPc → Bool
  | .away _ => false
  | .intr _ (.scan (_ + 1)) => false
  | _ => true

theorem Tick.scheduler_go (hx : ∀ p, s.spc c ≠ .away p)
    (hspc : s'.spc = update s.spc c y) (hy : y.plain = true)
    (hpc : s'.pc = s.pc) (hctx : s'.context = s.context)
    (hl : ∀ b, s'.lock (.other b) = s.lock (.other b)) (hstate : s'.t.state = s.t.state)
    (hchan : s'.t.chan = s.t.chan) : Tick c a s s' := by
  refine .scheduler_wakes hx ?_ hspc hpc hctx hl hchan (wakes_of_state hstate) ?_
  · rintro p rfl
    cases hy
  · rintro ch j rfl
    cases hy

theorem Tick.scheduler_take (hx : ∀ p, s.spc c ≠ .away p) (hy : y.plain = true)
    (ho : acquire c .ptable s = .ok s') : Tick c a s (sgoto c y s') := by
  obtain ⟨-, rfl⟩ := acquire_ok ho
  refine .scheduler_go hx rfl hy rfl rfl (fun b => ?_) rfl rfl
  simp [sgoto]

theorem Tick.scheduler_drop (hx : ∀ p, s.spc c ≠ .away p) (hy : y.plain = true)
    (ho : release c .ptable s = .ok s') : Tick c a s (sgoto c y s') := by
  obtain ⟨-, rfl⟩ := release_ok ho
  refine .scheduler_go hx rfl hy rfl rfl (fun b => ?_) rfl rfl
  simp [sgoto]

theorem tick_intr (hx : s.spc c = .intr ch w)
    (ho : wakeStep c ch w (intrNext c ch) s = .ok s') : Tick c .go s s' := by
  have ha (p : Slot) : s.spc c ≠ .away p := by
    rw [hx]
    nofun
  have hy (j : Nat) (p : Slot) : SPc.intr ch (.scan j) ≠ .away p := nofun
  cases w with
  | lock =>
    obtain ⟨s₁, h₁, he⟩ := bind_ok ho
    cases he
    exact .scheduler_take ha rfl h₁
  | scan j =>
    simp only [wakeStep] at ho
    split at ho
    · next hj =>
      cases ho
      refine .scheduler_wakes ha (hy (j + 1)) rfl rfl rfl (fun _ => rfl)
        (wakeOne_chan ..) (wakes_wakeOne _ _ _) ?_
      intro ch' j' hj'
      cases hj'
      exact ⟨hx, fun i => not_sleeping_wakeOne hj rfl⟩
    · cases ho
      exact .scheduler_go ha rfl rfl rfl rfl (fun _ => rfl) rfl rfl
  | unlock =>
    obtain ⟨s₁, h₁, he⟩ := bind_ok ho
    cases he
    exact .scheduler_drop ha rfl h₁

theorem tick_enter (hx : s.spc c = .switch p) :
    Tick c .go s (goto p (.resume (s.context p)) (sgoto c (.away p) s)) := by
  have ha (q : Slot) : s.spc c ≠ .away q := by
    rw [hx]
    nofun
  constructor
  · intro d hd
    exact update_of_ne hd ..
  · exact fun q hq => absurd hq (ha q)
  · exact fun q hq => absurd hq (ha q)
  · exact fun _ _ => rfl
  · intro q _
    by_cases hq : q = p
    · subst hq
      exact .inr ⟨hx, update_self .., update_self ..⟩
    · refine .inl ⟨update_of_ne hq .., ?_, .inl rfl⟩
      intro he
      cases (update_self ..).symm.trans he
      exact hq rfl
  · exact fun _ _ => id
  · exact fun q hq => absurd hq (ha q)
  · exact fun _ _ => rfl
  · exact fun _ _ => .inl
  · exact fun q ch l hq => absurd hq (ha q)
  · intro ch j hs
    simp [goto, sgoto, SPc.scans, Pc.scans] at hs

theorem tick_schedStep (hx : ∀ p, s.spc c ≠ .away p)
    (ho : schedStep c s (s.spc c) a = .ok s') : Tick c a s s' := by
  unfold schedStep at ho
  split at ho
  · obtain ⟨s₁, h₁, hs⟩ := bind_ok ho
    cases hs
    exact .scheduler_take hx rfl h₁
  · cases ho
    exact .scheduler_go hx rfl rfl rfl rfl (fun _ => rfl) rfl rfl
  · dsimp only at ho
    split at ho
    · cases ho
      exact .scheduler_go hx rfl rfl rfl rfl (fun _ => rfl) (charge_state s.t)
        (charge_chan s.t)
    · cases ho
      exact .scheduler_go hx rfl rfl rfl rfl (fun _ => rfl) (charge_state s.t)
        (charge_chan s.t)
  · cases ho
    exact .scheduler_go hx rfl rfl rfl rfl (fun _ => rfl) rfl rfl
  · cases ho
    exact .scheduler_go hx rfl rfl rfl rfl (fun _ => rfl) rfl rfl
  · next p he =>
    cases ho
    refine .scheduler hx (y := .switch p) nofun rfl rfl rfl (fun _ => rfl) rfl (fun q hq => ?_)
      (fun q hq => ?_) nofun
    · by_cases h : q = p
      · rw [h]
        exact congrArg alive (setState_self ..)
      · exact (congrArg alive (setState_of_ne h ..)).trans hq
    · by_cases h : q = p
      · rw [h] at hq
        cases (setState_self ..).symm.trans hq
      · exact (setState_of_ne h ..).symm.trans hq
  · next p he =>
    cases ho
    exact tick_enter he
  · cases ho
    exact .scheduler_go hx rfl rfl rfl rfl (fun _ => rfl) rfl rfl
  · cases ho
    exact .scheduler_go hx rfl rfl rfl rfl (fun _ => rfl) rfl rfl
  · cases ho
    exact .scheduler_go hx rfl rfl rfl rfl (fun _ => rfl) rfl rfl
  · obtain ⟨s₁, h₁, hs⟩ := bind_ok ho
    cases hs
    exact .scheduler_drop hx rfl h₁
  · next he => exact tick_intr he ho
  · cases ho

end Scheduler

theorem tick_step (h : Inv s) (ho : step s (c, a) = .ok s') : Tick c a s s' := by
  unfold step at ho
  split at ho
  · next p hc => exact (procStep_move rfl ho).tick h hc rfl
  · next hx => exact tick_schedStep hx ho

end Xv6.Sched
