import Xv6.Sched.Flow

namespace Xv6.Sched.Clock
open Lib Proc Function
set_option autoImplicit true

abbrev ticksChan : Chan := .addr 0

/-- Where the timer interrupt on CPU 0 is: counting, in `wakeup(&ticks)`, or about to yield or
exit. -/
inductive Timer where
  | idle
  | wake
  | waking
  | leave
  deriving DecidableEq

/-- What is left of accounting for a process: to charge it, and to set `last_scheduled`. -/
inductive Part where
  | charge (j : Nat)
  | stamp (p : Slot)
  deriving DecidableEq

/-- The machine with its clock; `part` is what the scheduler of a CPU does next. -/
structure St where
  m : Sched.St
  timer : Timer
  part : Cpu → Part

def boot (ticks : UInt32) : St where
  m := Sched.boot ticks
  timer := .idle
  part _ := .charge 0

inductive Event where
  | act (c : Cpu) (a : Act)
  | tick
  | count

def setTable (f : Ptable → Ptable) (m : Sched.St) : Sched.St :=
  { m with t := f m.t }

/-- `p->run_time += ticks - p->last_scheduled`. -/
def chargeRun (p : Slot) (t : Ptable) : Ptable :=
  { t with runTime :=
      update t.runTime p (t.runTime p + (t.ticks - t.lastScheduled p)) }

def chargeWait (p : Slot) (t : Ptable) : Ptable :=
  { t with waitTime :=
      update t.waitTime p (t.waitTime p + (t.ticks - t.lastScheduled p)) }

def stamp (p : Slot) (t : Ptable) : Ptable :=
  { t with lastScheduled := update t.lastScheduled p t.ticks }

/-- The pass charges `p` by its state. -/
def chargeState (p : Slot) (t : Ptable) : Ptable :=
  if t.state p = .running then chargeRun p t
  else if t.state p = .runnable then chargeWait p t
  else t

def setPart (c : Cpu) (x : Part) (s : St) : St :=
  { s with part := update s.part c x }

def edit (f : Sched.St → Sched.St) (s : St) : St :=
  { s with m := f s.m }

/-- One statement of the pass over all processes, or the choice. -/
def scan (c : Cpu) (s : St) : St :=
  match s.part c with
  | .charge j =>
    if h : j < nProc then
      if s.m.t.state ⟨j, h⟩ ≠ .unused ∧ s.m.t.lastScheduled ⟨j, h⟩ ≠ 0 then
        setPart c (.stamp ⟨j, h⟩) (edit (setTable (chargeState ⟨j, h⟩)) s)
      else setPart c (.charge (j + 1)) s
    else
      match choose s.m.t with
      | none => setPart c (.charge 0) (edit (sgoto c .unlock) s)
      | some p =>
        setPart c (.charge 0) (edit (fun m => sgoto c (.enter p) (setTable (stamp p) m)) s)
  | .stamp p => setPart c (.charge (p.val + 1)) (edit (setTable (stamp p)) s)

/-- One statement of the accounting after `swtch` is back from `p`. -/
def account (c : Cpu) (p : Slot) (s : St) : St :=
  match s.part c with
  | .charge _ =>
    setPart c (.stamp p)
      (if s.m.t.lastScheduled p ≠ 0 then edit (setTable (chargeRun p)) s else s)
  | .stamp _ =>
    setPart c (.charge 0) (edit (fun m => sgoto c (.clear p) (setTable (stamp p) m)) s)

def act (c : Cpu) (a : Act) (s : St) : Except Fault St :=
  match s.m.spc c, a with
  | .scan, .go => .ok (scan c s)
  | .account p, .go => .ok (account c p s)
  | _, _ => do
    let m ← Sched.step s.m (c, a)
    .ok { s with m := m }

/-- CPU 0 is in code that an interrupt may stop. -/
def atRest (m : Sched.St) : Bool :=
  match m.spc 0 with
  | .loop => true
  | .away p =>
    match m.pc p with
    | .point _ => true
    | _ => false
  | _ => false

/-- What CPU 0 may do in the timer interrupt, and where it goes on. -/
def Timer.next (m : Sched.St) : Timer → Act → Option Timer
  | .idle, _ => some .idle
  | .wake, .call (.wakeup ch) => if ch = ticksChan then some .waking else none
  | .waking, .go => if atRest m then none else some .waking
  | .leave, .call .yield => some .idle
  | .leave, .call .exit => some .idle
  | _, _ => none

/-- `ticks++` in the timer interrupt on CPU 0. -/
def tick (s : St) : Except Fault St :=
  if s.timer = .idle ∧ atRest s.m ∧ s.m.ncli 0 = 0 then
    .ok { s with
      m := setTable (fun t => { t with ticks := t.ticks + 1 }) s.m
      timer := .wake }
  else .error .blocked

/-- `p->run_time++` in the timer interrupt on CPU 0. -/
def count (s : St) : Except Fault St :=
  if s.timer = .waking ∧ atRest s.m then
    match s.m.proc 0 with
    | none => .ok { s with timer := .idle }
    | some p =>
      if s.m.t.state p = .running then
        .ok { s with
          m := setTable (fun t => { t with
            runTime := update t.runTime p (t.runTime p + 1) }) s.m
          timer := .leave }
      else .ok { s with timer := .idle }
  else .error .blocked

def step (s : St) : Event → Except Fault St
  | .act c a =>
    if c = 0 then
      match s.timer.next s.m a with
      | some x => do
        let s ← act c a s
        .ok { s with timer := x }
      | none => .error .blocked
    else act c a s
  | .tick => tick s
  | .count => count s

def NoWrap (s : St) : Event → Bool
  | .tick => s.m.t.ticks.toNat + 1 < 2 ^ 32
  | _ => true

/-- The timer interrupt finds no process running on CPU 0. -/
def IdleCpu (s : St) : Event → Bool
  | .count =>
    match s.m.proc 0 with
    | none => true
    | some p => s.m.t.state p ≠ .running
  | _ => true

def times (t : Ptable) :=
  (t.runTime, t.waitTime, t.creationTime, t.lastScheduled, t.ticks)

theorem times_wakeOne (ch : Option Chan) (t : Ptable) (p : Slot) :
    times (wakeOne ch t p) = times t := by
  rw [wakeOne]
  split <;> rfl

theorem times_kill (pid : UInt32) (t : Ptable) : times (kill pid t).2 = times t := by
  rcases kill_cases pid t with ⟨-, hk⟩ | ⟨q, -, -, hk⟩
  · rw [hk]
  · rw [hk]
    rfl

theorem times_exit (cur : Slot) (t : Ptable) : times (Proc.exit cur t) = times t := by
  obtain ⟨x, y, h⟩ := exit_frame cur t
  rw [h]
  rfl

theorem times_edit {m : Sched.St} (h : Edit c m t) (hs : m.spc c ≠ .scan)
    (ha : ∀ p, m.spc c ≠ .account p) :
    times t = times m.t ∨ ∃ np, allocSlot m.t = some (np, t) := by
  cases h with
  | wake ch q => exact .inl (times_wakeOne ch m.t q)
  | kill pid => exact .inl (times_kill pid m.t)
  | exit => exact .inl (times_exit _ m.t)
  | alloc h => exact .inr ⟨_, h⟩
  | scan hc => exact absurd hc hs
  | account hc => exact absurd hc (ha _)
  | _ => exact .inl rfl

/-- The ticks that a process was charged for since its creation. -/
def spent (t : Ptable) (p : Slot) : Nat :=
  (t.creationTime p).toNat + (t.runTime p).toNat + (t.waitTime p).toNat

/-- No process was charged for more than it has lived, or, unless `pending`, had at
`last_scheduled`. -/
structure Bounds (t : Ptable) (pending : Slot → Prop) : Prop where
  spent : ∀ p, spent t p ≤ t.ticks.toNat
  last : ∀ p, (t.lastScheduled p).toNat ≤ t.ticks.toNat
  settled : ∀ p, ¬pending p → Clock.spent t p ≤ (t.lastScheduled p).toNat

section Table
variable {t t' : Ptable} {x y : Slot → Prop} {p : Slot}

theorem Bounds.mono (h : Bounds t x) (hx : ∀ p, x p → y p) : Bounds t y :=
  ⟨h.spent, h.last, fun p hp => h.settled p fun hxp => hp (hx p hxp)⟩

theorem Bounds.congr (h : Bounds t x) (ht : times t' = times t) : Bounds t' x := by
  simp only [times, Prod.mk.injEq] at ht
  obtain ⟨hr, hw, hc, hl, hk⟩ := ht
  refine ⟨fun p => ?_, fun p => ?_, fun p hp => ?_⟩
  · rw [Clock.spent, hr, hw, hc, hk]
    exact h.spent p
  · rw [hl, hk]
    exact h.last p
  · rw [Clock.spent, hr, hw, hc, hl]
    exact h.settled p hp

theorem toNat_charge {a l k : UInt32} (hl : l.toNat ≤ k.toNat) (ha : a.toNat ≤ l.toNat) :
    (a + (k - l)).toNat = a.toNat + k.toNat - l.toNat := by
  have hk := k.toNat_lt
  rw [UInt32.toNat_add, UInt32.toNat_sub_of_le _ _ hl, Nat.mod_eq_of_lt (by omega)]
  omega

theorem Bounds.charge {t' : Ptable} (h : Bounds t x)
    (hother : ∀ q, q ≠ p → Clock.spent t' q = Clock.spent t q) (hl : t'.lastScheduled = t.lastScheduled)
    (hk : t'.ticks = t.ticks)
    (hp : Clock.spent t' p = Clock.spent t p + t.ticks.toNat - (t.lastScheduled p).toNat)
    (hx : ¬x p) : Bounds t' fun q => q = p ∨ x q := by
  have hset := h.settled p hx
  have hlast := h.last p
  refine ⟨fun q => ?_, fun q => ?_, fun q hq => ?_⟩
  · rw [hk]
    by_cases hqp : q = p
    · rw [hqp, hp]
      omega
    · rw [hother q hqp]
      exact h.spent q
  · rw [hl, hk]
    exact h.last q
  · rw [hother q fun he => hq (.inl he), hl]
    exact h.settled q fun hxq => hq (.inr hxq)

theorem Bounds.chargeRun (h : Bounds t x) (hx : ¬x p) :
    Bounds (chargeRun p t) fun q => q = p ∨ x q := by
  have hset := h.settled p hx
  refine h.charge (fun q hq => ?_) rfl rfl ?_ hx
  · simp only [Clock.spent, Clock.chargeRun, update_of_ne hq]
  · simp only [Clock.spent] at hset
    simp only [Clock.spent, Clock.chargeRun, update_self]
    rw [toNat_charge (h.last p) (by omega)]
    have hlast := h.last p
    omega

theorem Bounds.chargeWait (h : Bounds t x) (hx : ¬x p) :
    Bounds (chargeWait p t) fun q => q = p ∨ x q := by
  have hset := h.settled p hx
  refine h.charge (fun q hq => ?_) rfl rfl ?_ hx
  · simp only [Clock.spent, Clock.chargeWait, update_of_ne hq]
  · simp only [Clock.spent] at hset
    simp only [Clock.spent, Clock.chargeWait, update_self]
    rw [toNat_charge (h.last p) (by omega)]
    have hlast := h.last p
    omega

theorem Bounds.chargeState (h : Bounds t x) (hx : ¬x p) :
    Bounds (chargeState p t) fun q => q = p ∨ x q := by
  rw [Clock.chargeState]
  split
  · exact h.chargeRun hx
  · split
    · exact h.chargeWait hx
    · exact h.mono fun q hq => .inr hq

theorem Bounds.stamp (h : Bounds t x) : Bounds (stamp p t) fun q => q ≠ p ∧ x q := by
  refine ⟨h.spent, fun q => ?_, fun q hq => ?_⟩
  · by_cases hqp : q = p
    · subst hqp
      simp [Clock.stamp]
    · simp only [Clock.stamp, update_of_ne hqp]
      exact h.last q
  · by_cases hqp : q = p
    · subst hqp
      simp only [Clock.stamp, update_self]
      exact h.spent q
    · simp only [Clock.stamp, update_of_ne hqp]
      exact h.settled q fun hxq => hq ⟨hqp, hxq⟩

theorem Bounds.tick (h : Bounds t x) (hk : t.ticks.toNat + 1 < 2 ^ 32) :
    Bounds { t with ticks := t.ticks + 1 } x := by
  have hone : (t.ticks + 1).toNat = t.ticks.toNat + 1 := by
    rw [UInt32.toNat_add]
    exact Nat.mod_eq_of_lt hk
  refine ⟨fun p => ?_, fun p => ?_, h.settled⟩
  · exact (h.spent p).trans (by rw [hone]; exact Nat.le_succ _)
  · exact (h.last p).trans (by rw [hone]; exact Nat.le_succ _)

theorem Bounds.alloc (h : Bounds t x) (ha : allocSlot t = some (p, t')) : Bounds t' x := by
  unfold allocSlot at ha
  split at ha
  · cases ha
  · next q _ =>
    obtain ⟨rfl, rfl⟩ := Prod.mk.inj (Option.some.inj ha)
    refine ⟨fun r => ?_, fun r => ?_, fun r hr => ?_⟩
    · by_cases hrq : r = q
      · subst hrq
        simp [Clock.spent]
      · simpa [Clock.spent, hrq] using h.spent r
    · by_cases hrq : r = q
      · subst hrq
        simp
      · simpa [hrq] using h.last r
    · by_cases hrq : r = q
      · subst hrq
        simp [Clock.spent]
      · simpa [Clock.spent, hrq] using h.settled r hr

end Table

/-- A CPU has charged `p` and not yet set `p->last_scheduled`. -/
def Pending (s : St) (p : Slot) : Prop :=
  ∃ c, s.part c = .stamp p

structure Timed (s : St) : Prop where
  inv : Inv s.m
  bounds : Bounds s.m.t (Pending s)
  busy : ∀ c p, s.part c = .stamp p → s.m.spc c = .scan ∨ s.m.spc c = .account p

theorem timed_boot (ticks : UInt32) : Timed (boot ticks) := by
  refine ⟨inv_boot ticks, ⟨fun p => ?_, fun p => ?_, fun p _ => ?_⟩, nofun⟩
  · by_cases hp : p = 0 <;> simp [boot, Sched.boot, userinit, spent, hp]
  · by_cases hp : p = 0 <;> simp [boot, Sched.boot, userinit, hp]
  · by_cases hp : p = 0 <;> simp [boot, Sched.boot, userinit, spent, hp]

section Step
variable {s s' : St} {c : Cpu}

theorem held_of_part (h : Timed s) (hp : s.part c = .stamp p) : held s.m c = true := by
  unfold held
  rcases h.busy c p hp with hs | hs <;> rw [hs] <;> rfl

theorem Timed.not_pending (h : Timed s) (hc : held s.m c = true) (hp : ∀ q, s.part c ≠ .stamp q)
    (p : Slot) : ¬Pending s p := by
  rintro ⟨d, hd⟩
  obtain rfl := h.inv.lock.unique (held_of_part h hd) hc
  exact hp p hd

theorem inv_setTable {m : Sched.St} (h : Inv m) (ht : (f m.t).state = m.t.state) :
    Inv (setTable f m) := by
  refine ⟨h.lock, h.proc, h.pgdir, h.unique, ?_, ?_, ?_, ?_, ?_, ?_⟩ <;>
    simp only [setTable, ht]
  · exact h.running
  · exact h.settled
  · exact h.switch
  · exact h.left
  · exact h.chosen
  · exact h.forks

theorem chargeState_state (p : Slot) (t : Ptable) : (chargeState p t).state = t.state := by
  rw [chargeState]
  split
  · rfl
  · split <;> rfl

theorem pending_other {s' : St} (hpart : s'.part = update s.part c x)
    (hc : s.part c ≠ .stamp p) (hp : Pending s p) : Pending s' p := by
  obtain ⟨d, hd⟩ := hp
  have hdc : d ≠ c := by
    rintro rfl
    exact hc hd
  exact ⟨d, by rw [hpart, update_of_ne hdc, hd]⟩

theorem Timed.busy_other (h : Timed s) (hpart : s'.part = update s.part c x)
    (hspc : ∀ d, d ≠ c → s'.m.spc d = s.m.spc d)
    (hc : ∀ p, x = .stamp p → s'.m.spc c = .scan ∨ s'.m.spc c = .account p) (d : Cpu) (p : Slot)
    (hd : s'.part d = .stamp p) : s'.m.spc d = .scan ∨ s'.m.spc d = .account p := by
  by_cases hdc : d = c
  · subst hdc
    rw [hpart, update_self] at hd
    exact hc p hd
  · rw [hpart, update_of_ne hdc] at hd
    rw [hspc d hdc]
    exact h.busy d p hd

theorem Timed.charge (h : Timed s) (hc : held s.m c = true) (hj : s.part c = .charge j)
    (hx : s.m.spc c = .scan ∨ s.m.spc c = .account p) (ht : (f s.m.t).state = s.m.t.state)
    (hf : ¬Pending s p → Bounds (f s.m.t) fun q => q = p ∨ Pending s q) :
    Timed (setPart c (.stamp p) (edit (setTable f) s)) := by
  have hcharge : ∀ q, s.part c ≠ .stamp q := by
    rw [hj]
    exact nofun
  refine ⟨inv_setTable h.inv ht, ?_, h.busy_other rfl (fun _ _ => rfl) ?_⟩
  · apply (hf (h.not_pending hc hcharge p)).mono
    rintro q (rfl | hq)
    · exact ⟨c, update_self ..⟩
    · exact pending_other (s := s) rfl (hcharge q) hq
  · rintro q hq
    cases hq
    exact hx

theorem Timed.stamp (h : Timed s) (hp : ∀ q, q ≠ p → s.part c ≠ .stamp q)
    (hinv : Inv m) (hm : m.t = stamp p s.m.t) (hspc : ∀ d, d ≠ c → m.spc d = s.m.spc d) :
    Timed { s with m := m, part := update s.part c (.charge j) } := by
  refine ⟨hinv, ?_, h.busy_other rfl hspc nofun⟩
  show Bounds m.t _
  rw [hm]
  apply h.bounds.stamp.mono
  rintro q ⟨hqp, hq⟩
  exact pending_other (s := s) rfl (hp q hqp) hq

theorem Timed.scan (h : Timed s) (hs : s.m.spc c = .scan) : Timed (scan c s) := by
  have hc : held s.m c = true := by
    unfold held
    rw [hs]
    rfl
  unfold Clock.scan
  split
  · next j hj =>
    have hcharge : ∀ q, s.part c ≠ .stamp q := by
      rw [hj]
      exact nofun
    split
    · next hlt =>
      split
      · exact h.charge hc hj (.inl hs) (chargeState_state _ _) h.bounds.chargeState
      · refine ⟨h.inv, ?_, h.busy_other rfl (fun _ _ => rfl) nofun⟩
        exact h.bounds.mono fun q => pending_other rfl (hcharge q)
    · split
      · refine ⟨h.inv.unchosen hs rfl, ?_, h.busy_other rfl ?_ nofun⟩
        · exact h.bounds.mono fun q => pending_other rfl (hcharge q)
        · intro d hd
          exact update_of_ne hd ..
      · next p hp =>
        refine h.stamp (fun q _ => hcharge q) (h.inv.choose hs rfl (choose_some hp)) rfl ?_
        intro d hd
        exact update_of_ne hd ..
  · next p hp =>
    refine h.stamp ?_ (inv_setTable h.inv rfl) rfl fun _ _ => rfl
    intro q hq he
    rw [hp] at he
    exact hq (Part.stamp.inj he).symm

theorem Timed.account (h : Timed s) (hs : s.m.spc c = .account p) : Timed (account c p s) := by
  have hc : held s.m c = true := by
    unfold held
    rw [hs]
    rfl
  unfold Clock.account
  split
  · next j hj =>
    split
    · exact h.charge hc hj (.inr hs) rfl h.bounds.chargeRun
    · exact h.charge (f := id) hc hj (.inr hs) rfl fun _ => h.bounds.mono fun q hq => .inr hq
  · next p' hp' =>
    refine h.stamp ?_ (h.inv.accounted hs rfl) rfl ?_
    · intro q hq he
      rcases h.busy c q he with hq' | hq'
      · cases hs.symm.trans hq'
      · cases hs.symm.trans hq'
        exact hq rfl
    · intro d hd
      exact update_of_ne hd ..

theorem step_accounting {m m' : Sched.St} (hx : m.spc c = .scan ∨ m.spc c = .account p)
    (ho : Sched.step m (c, a) = .ok m') : a = .go := by
  unfold Sched.step at ho
  cases a with
  | go => rfl
  | call r => rcases hx with hx | hx <;> rw [hx] at ho <;> cases ho
  | memory enough => rcases hx with hx | hx <;> rw [hx] at ho <;> cases ho

theorem Timed.other (h : Timed s) (hscan : s.m.spc c ≠ .scan)
    (haccount : ∀ p, s.m.spc c ≠ .account p) (ho : Sched.step s.m (c, a) = .ok m) :
    Timed { s with m := m } := by
  have hspc := (tick_step h.inv ho).spc
  refine ⟨h.inv.step ho, ?_, ?_⟩
  · rcases times_edit (edit_step ho) hscan haccount with ht | ⟨np, ha⟩
    · exact h.bounds.congr ht
    · exact h.bounds.alloc ha
  · intro d p hd
    have hdc : d ≠ c := by
      rintro rfl
      rcases h.busy d p hd with hx | hx
      · exact hscan hx
      · exact haccount p hx
    show m.spc d = .scan ∨ m.spc d = .account p
    rw [hspc d hdc]
    exact h.busy d p hd

theorem Timed.act (h : Timed s) (ho : act c a s = .ok s') : Timed s' := by
  unfold Clock.act at ho
  split at ho
  · next hs =>
    cases ho
    exact h.scan hs
  · next p hs =>
    cases ho
    exact h.account hs
  · next hscan haccount =>
    obtain ⟨m, hm, he⟩ := bind_ok ho
    cases he
    apply h.other _ _ hm
    · exact fun hx => hscan hx (step_accounting (p := 0) (.inl hx) hm)
    · exact fun p hx => haccount p hx (step_accounting (.inr hx) hm)

theorem Timed.setTimer (h : Timed s) (x : Timer) : Timed { s with timer := x } :=
  ⟨h.inv, h.bounds, h.busy⟩

theorem Timed.tick (h : Timed s) (hk : s.m.t.ticks.toNat + 1 < 2 ^ 32)
    (ho : tick s = .ok s') : Timed s' := by
  unfold Clock.tick at ho
  obtain ⟨-, ho⟩ := if_ok ho
  cases ho
  have hinv := inv_setTable (f := fun t => { t with ticks := t.ticks + 1 }) h.inv rfl
  exact ⟨hinv, h.bounds.tick hk, h.busy⟩

theorem Timed.count (h : Timed s) (hi : IdleCpu s .count = true) (ho : count s = .ok s') :
    Timed s' := by
  unfold Clock.count at ho
  obtain ⟨-, ho⟩ := if_ok ho
  rw [IdleCpu] at hi
  split at ho
  · cases ho
    exact h.setTimer .idle
  · next p hp =>
    rw [hp] at hi
    rw [if_neg (of_decide_eq_true hi)] at ho
    cases ho
    exact h.setTimer .idle

theorem Timed.step (h : Timed s) (hk : NoWrap s e = true) (hi : IdleCpu s e = true)
    (ho : step s e = .ok s') : Timed s' := by
  cases e with
  | act c a =>
    rw [Clock.step] at ho
    split at ho
    · split at ho
      · next x _ =>
        obtain ⟨s₁, h₁, he⟩ := bind_ok ho
        cases he
        exact (h.act h₁).setTimer x
      · cases ho
    · exact h.act ho
  | tick => exact h.tick (of_decide_eq_true hk) ho
  | count => exact h.count hi ho

/-- If no timer interrupt finds a process on CPU 0, no tick is counted twice. -/
theorem run_wait_le_age
    (h : Exec Clock.step (fun s e => NoWrap s e = true ∧ IdleCpu s e = true) (boot ticks) es s)
    (p : Slot) :
    (s.m.t.runTime p).toNat + (s.m.t.waitTime p).toNat
      ≤ s.m.t.ticks.toNat - (s.m.t.creationTime p).toNat := by
  have htimed : Timed s :=
    h.invariant (timed_boot ticks) fun _ _ _ ht hl => ht.step hl.1 hl.2
  have hspent := htimed.bounds.spent p
  rw [spent] at hspent
  omega

end Step

def go (c : Cpu) (n : Nat) : List Event :=
  List.replicate n (.act c .go)

def interrupt : List Event :=
  [.tick, .act 0 (.call (.wakeup ticksChan))] ++ go 0 67

/-- The only process runs on CPU 1 until the idle CPU 0 has counted a tick. -/
def idleTick : List Event :=
  go 1 72 ++ interrupt ++ [.count, .act 1 (.call .yield)] ++ go 1 6

theorem run_wait_le_age_idleTick :
    ∃ s, Exec Clock.step (fun s e => NoWrap s e = true ∧ IdleCpu s e = true) (boot 1) idleTick s ∧
      (s.m.t.runTime 0).toNat = 1 ∧ s.m.t.ticks.toNat - (s.m.t.creationTime 0).toNat = 1 ∧
      (s.m.t.runTime 0).toNat + (s.m.t.waitTime 0).toNat
        ≤ s.m.t.ticks.toNat - (s.m.t.creationTime 0).toNat := by
  obtain ⟨s, hr, hs⟩ := (Option.any_eq_true _ _).1
    (show (runLegal Clock.step (fun s e => NoWrap s e && IdleCpu s e) (boot 1) idleTick).any
      (fun s => (s.m.t.runTime 0).toNat = 1 ∧
        s.m.t.ticks.toNat - (s.m.t.creationTime 0).toNat = 1) = true by decide +kernel)
  have hexec : Exec Clock.step (fun s e => NoWrap s e = true ∧ IdleCpu s e = true) (boot 1)
      idleTick s := (exec_of_runLegal _ _ _ _ hr).mono fun _ _ he => (Bool.and_eq_true _ _).mp he
  obtain ⟨hrun, hage⟩ := of_decide_eq_true hs
  exact ⟨s, hexec, hrun, hage, run_wait_le_age hexec 0⟩

def round (pass : Nat) : List Event :=
  go 0 (pass + 7) ++ interrupt ++ [.count, .act 0 (.call .yield)] ++ go 0 6

def twoRounds : List Event :=
  round 64 ++ go 0 2 ++ round 65

/-- Timer interrupt and scheduler both count the second tick of the only process. -/
theorem second_tick_twice :
    ∃ s, Exec Clock.step (fun s e => NoWrap s e = true) (boot 0) twoRounds s ∧
      s.m.t.state 0 = .runnable ∧ (s.m.t.runTime 0).toNat = 3 ∧ (s.m.t.waitTime 0).toNat = 0 ∧
      s.m.t.ticks.toNat - (s.m.t.creationTime 0).toNat = 2 := by
  obtain ⟨s, hr, hs⟩ := (Option.any_eq_true _ _).1
    (show (runLegal Clock.step NoWrap (boot 0) twoRounds).any (fun s =>
      s.m.t.state 0 = .runnable ∧ (s.m.t.runTime 0).toNat = 3 ∧ (s.m.t.waitTime 0).toNat = 0 ∧
      s.m.t.ticks.toNat - (s.m.t.creationTime 0).toNat = 2) = true by decide +kernel)
  exact ⟨s, exec_of_runLegal _ _ _ _ hr, of_decide_eq_true hs⟩

end Xv6.Sched.Clock
