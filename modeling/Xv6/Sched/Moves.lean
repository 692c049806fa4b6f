import Xv6.Lib.Exec
import Xv6.Sched.Machine

namespace Xv6.Sched
open Lib Proc Function
set_option autoImplicit true

def Wake.holds : Wake → Bool
  | .lock => false
  | _ => true

/-- The process has `ptable.lock`, its own or the scheduler's. -/
def Pc.holds : Pc → Bool
  | .off => false
  | .point _ => false
  | .unlock _ => true
  | .yieldLock _ => false
  | .yieldState _ => true
  | .sleepLock _ _ => false
  | .sleepUnlock _ _ => true
  | .sleepChan _ _ => true
  | .sleepState _ _ => true
  | .sched _ => true
  | .resume _ => true
  | .wake _ w _ => w.holds
  | .killLock _ => false
  | .killScan _ => true
  | .exitLock => false
  | .exitScan => true
  | .waitLock => false
  | .waitScan => true
  | .forkLock => false
  | .forkAlloc => true
  | .forkReady => true

/-- The process has not yet left the state RUNNING. -/
def Pc.settled : Pc → Bool
  | .sched _ => false
  | _ => true

/-- What a step does to the spinlocks other than `ptable.lock`. -/
inductive Turn where
  | keep
  | take (b : Nat)
  | give (b : Nat)

def Turn.Applies (c : Cpu) (lock lock' : LockId → Option Cpu) : Turn → Prop
  | .keep => ∀ b, lock' (.other b) = lock (.other b)
  | .take b => lock (.other b) = none ∧
      ∀ b', lock' (.other b') = if b' = b then some c else lock (.other b')
  | .give b => lock (.other b) = some c ∧
      ∀ b', lock' (.other b') = if b' = b then none else lock (.other b')

/-- The control flow of a process in the kernel. -/
inductive Flow : Act → Pc → Turn → Pc → Prop where
  | yield : Flow (.call .yield) (.point x) .keep (.yieldLock x)
  | wakeup : Flow (.call (.wakeup ch)) (.point x) .keep (.wake ch .lock x)
  | acquire : Flow (.call (.acquire b)) (.point .run) (.take b) (.point .run)
  | release : Flow (.call (.release b)) (.point .run) (.give b) (.point .run)
  | sleep : Flow (.call (.sleep ch b)) (.point .run) .keep (.sleepLock ch b)
  | kill : Flow (.call (.kill pid)) (.point .run) .keep (.killLock pid)
  | exit : Flow (.call .exit) (.point .run) .keep .exitLock
  | wait : Flow (.call .wait) (.point .run) .keep .waitLock
  | fork : Flow (.call .fork) (.point .run) .keep .forkLock
  | forkBody : Flow (.memory true) (.point .forkBody) .keep (.point .forkReady)
  | forkFail : Flow (.memory false) (.point .forkBody) .keep (.point .run)
  | forkReadyLock : Flow .go (.point .forkReady) .keep .forkReady
  | reacquire : Flow .go (.point (.reacquire b)) (.take b) (.point .run)
  | unlock : Flow .go (.unlock x) .keep (.point x)
  | yieldLock : Flow .go (.yieldLock x) .keep (.yieldState x)
  | yieldState : Flow .go (.yieldState x) .keep (.sched (.yield x))
  | sleepLock : Flow .go (.sleepLock ch b) .keep (.sleepUnlock ch b)
  | sleepUnlock : Flow .go (.sleepUnlock ch b) (.give b) (.sleepChan ch (.other b))
  | sleepChan : Flow .go (.sleepChan ch l) .keep (.sleepState ch l)
  | sleepState : Flow .go (.sleepState ch l) .keep (.sched (.sleep l))
  | sched : Flow .go (.sched k) .keep (.resume k)
  | forkret : Flow .go (.resume .forkret) .keep (.point .run)
  | yielded : Flow .go (.resume (.yield x)) .keep (.point x)
  | slept : Flow .go (.resume (.sleep (.other b))) .keep (.unlock (.reacquire b))
  | waited : Flow .go (.resume (.sleep .ptable)) .keep .waitScan
  | wakeLock : Flow .go (.wake ch .lock x) .keep (.wake ch (.scan 0) x)
  | wakeScan : j < nProc → Flow .go (.wake ch (.scan j) x) .keep (.wake ch (.scan (j + 1)) x)
  | wakeEnd : ¬j < nProc → Flow .go (.wake ch (.scan j) x) .keep (.wake ch .unlock x)
  | wakeUnlock : Flow .go (.wake ch .unlock x) .keep (.point x)
  | killLock : Flow .go (.killLock pid) .keep (.killScan pid)
  | killScan : Flow .go (.killScan pid) .keep (.unlock .run)
  | exitLock : Flow .go .exitLock .keep .exitScan
  | exitScan : Flow .go .exitScan .keep (.sched .exit)
  | waitLock : Flow .go .waitLock .keep .waitScan
  | waitEnd : Flow .go .waitScan .keep (.unlock .run)
  | waitSleep : Flow .go .waitScan .keep (.sleepChan (.proc p) .ptable)
  | forkLock : Flow .go .forkLock .keep .forkAlloc
  | forkNone : Flow .go .forkAlloc .keep (.unlock .run)
  | forkAlloc : Flow .go .forkAlloc .keep (.unlock .forkBody)
  | forkReady : Flow .go .forkReady .keep (.unlock .run)

/-- The step neither sets `p->state` nor goes on in a `wakeup`. -/
def Pc.plain : Pc → Bool
  | .off => false
  | .sleepState _ _ => false
  | .wake _ (.scan (_ + 1)) _ => false
  | _ => true

/-- What one process does to others' states: it wakes or reaps them. -/
def Keeps (p : Slot) (t t' : Ptable) : Prop :=
  ∀ q, q ≠ p → t'.state q = t.state q ∨ t.state q = .sleeping ∧ t'.state q = .runnable ∨
    t.state q = .zombie ∧ t'.state q = .unused

theorem keeps_of_state (h : t'.state = t.state) : Keeps p t t' :=
  fun q _ => .inl (congrFun h q)

theorem keeps_setState (p : Slot) (x : ProcState) (t : Ptable) : Keeps p t (setState p x t) :=
  fun _ hq => .inl (setState_of_ne hq x t)

theorem keeps_wakeOne (p : Slot) (ch : Option Chan) (t : Ptable) (q : Slot) :
    Keeps p t (wakeOne ch t q) :=
  fun r _ => (wakes_wakeOne ch t q r).imp_right .inl

theorem keeps_kill (p : Slot) (pid : UInt32) (t : Ptable) : Keeps p t (kill pid t).2 := by
  intro r _
  rcases kill_cases pid t with ⟨-, hk⟩ | ⟨q, -, -, hk⟩
  · rw [hk]
    exact .inl rfl
  · rw [hk]
    grind

theorem keeps_exit (p : Slot) (t : Ptable) : Keeps p t (exit p t) :=
  fun _ hq => (wakes_exit t hq).imp_right .inl

theorem keeps_reap (p : Slot) (hq : t.state q = .zombie) : Keeps p t (reap q t) := by
  intro r _
  by_cases hr : r = q
  · subst hr
    exact .inr (.inr ⟨hq, update_self ..⟩)
  · exact .inl (update_of_ne hr ..)

inductive Edit (c : Cpu) (s : St) : Ptable → Prop where
  | keep : Edit c s s.t
  | wake (ch : Option Chan) (q : Slot) : Edit c s (wakeOne ch s.t q)
  | kill (pid : UInt32) : Edit c s (kill pid s.t).2
  | own (hc : s.spc c = .away p) (hs : (s.pc p).settled = true) (x : ProcState) :
      Edit c s (setState p x s.t)
  | chan (p : Slot) (o : Option Chan) :
      Edit c s { s.t with chan := update s.t.chan p o }
  | turnaround (p : Slot) : Edit c s (turnaround p s.t)
  | exit (hc : s.spc c = .away p) (hs : (s.pc p).settled = true) : Edit c s (exit p s.t)
  | reap (hz : s.t.state q = .zombie) : Edit c s (reap q s.t)
  | alloc (ha : allocSlot s.t = some (np, t)) (hp : s.spc c = .away p) (hx : s.pc p = .forkAlloc) :
      Edit c s t
  | adopt (p np : Slot) : Edit c s (adopt p np s.t)
  | child (hn : s.np p = some np) (x : ProcState) : Edit c s (setState np x s.t)
  | mark (hc : s.spc c = .mark p) : Edit c s (setState p .running s.t)
  | scan (hc : s.spc c = .scan) (l : Slot → UInt32) :
      Edit c s { charge s.t with lastScheduled := l }
  | account (hc : s.spc c = .account p) (r l : Slot → UInt32) :
      Edit c s { s.t with runTime := r, lastScheduled := l }

theorem acquire_ok (h : acquire c l s = .ok s') : s.lock l = none ∧
    s' = { s with
      lock := update s.lock l (some c)
      ncli := update s.ncli c (s.ncli c + 1) } := by
  unfold acquire at h
  split at h
  · cases h
  · obtain ⟨hl, h⟩ := if_ok h
    exact ⟨hl, (Except.ok.inj h).symm⟩

theorem release_ok (h : release c l s = .ok s') : s.lock l = some c ∧
    s' = { s with
      lock := update s.lock l none
      ncli := update s.ncli c (s.ncli c - 1) } := by
  unfold release at h
  obtain ⟨hl, h⟩ := if_ok h
  exact ⟨hl, (Except.ok.inj h).symm⟩

inductive Move (c : Cpu) (p : Slot) (s : St) : Act → Pc → St → Prop where
  | go (hf : Flow a x .keep y) (hy : y.plain = true) (hs : x.settled = true)
      (hh : y.holds = x.holds) : Move c p s a x (goto p y s)
  | take (hf : Flow a x .keep y) (hy : y.plain = true) (hs : x.settled = true)
      (hh : y.holds = true) (ho : acquire c .ptable s = .ok s₁) : Move c p s a x (goto p y s₁)
  | drop (hf : Flow a x .keep y) (hy : y.plain = true) (hs : x.settled = true)
      (hx : x.holds = true) (hh : y.holds = false) (ho : release c .ptable s = .ok s₁) :
      Move c p s a x (goto p y s₁)
  | takeOther (hf : Flow a x (.take b) y) (hy : y.plain = true) (hs : x.settled = true)
      (hh : y.holds = x.holds) (ho : acquire c (.other b) s = .ok s₁) :
      Move c p s a x (goto p y s₁)
  | dropOther (hf : Flow a x (.give b) y) (hy : y.plain = true) (hs : x.settled = true)
      (hh : y.holds = x.holds) (ho : release c (.other b) s = .ok s₁) :
      Move c p s a x (goto p y s₁)
  | effect (hf : Flow a x .keep y) (hy : y.plain = true) (hs : x.settled = true)
      (hh : y.holds = x.holds) (he : Edit c s t) (hk : Keeps p s.t t)
      (hc : ∀ q, q ≠ p → t.chan q = s.t.chan q)
      (hr : s.t.state p = .running → t.state p = .running) :
      Move c p s a x (goto p y { s with t := t })
  | child (hf : Flow a x .keep y) (hy : y.plain = true) (hs : x.settled = true)
      (hh : y.holds = x.holds) (hn : s.np p = some np) (hr : z ≠ .running) (hz : z ≠ .sleeping) :
      Move c p s a x (goto p y { s with t := setState np z s.t, np := update s.np p none })
  | alloc (ha : allocSlot s.t = some (np, t)) :
      Move c p s .go .forkAlloc (goto p (.unlock .forkBody) { s with
        t := t
        np := update s.np p (some np)
        context := update s.context np .forkret })
  | wake (hj : j < nProc) :
      Move c p s .go (.wake ch (.scan j) x) (goto p (.wake ch (.scan (j + 1)) x) { s with
        t := wakeOne (some ch) s.t ⟨j, hj⟩ })
  | chan : Move c p s .go (.sleepChan ch l) (goto p (.sleepState ch l) { s with
      t := { s.t with chan := update s.t.chan p (some ch) } })
  | sleep : Move c p s .go (.sleepState ch l) (goto p (.sched (.sleep l)) { s with
      t := setState p .sleeping s.t })
  | yield : Move c p s .go (.yieldState x) (goto p (.sched (.yield x)) { s with
      t := setState p .runnable s.t })
  | exit : Move c p s .go .exitScan (goto p (.sched .exit) { s with t := exit p s.t })
  | sched (hl : s.lock .ptable = some c) (hr : s.t.state p ≠ .running) :
      Move c p s .go (.sched k) { s with
        context := update s.context p k
        pc := update s.pc p .off
        spc := update s.spc c (.back p) }

section Proc
variable {s s' : St} {c : Cpu} {p : Slot}

theorem goto_self (h : s.pc p = x) : goto p x s = s := by
  rw [goto, ← h, update_eq_self]

theorem start_move (hp : s.pc p = .point x) (ho : start c p x r s = .ok s') :
    Move c p s (.call r) (.point x) s' := by
  unfold start at ho
  split at ho
  · obtain ⟨-, ho⟩ := if_ok ho
    cases ho
    exact .go .yield rfl rfl rfl
  · cases ho
    exact .go .wakeup rfl rfl rfl
  · have hp' : s'.pc p = .point .run := by
      obtain ⟨-, rfl⟩ := acquire_ok ho
      exact hp
    rw [← goto_self hp']
    exact .takeOther .acquire rfl rfl rfl ho
  · have hp' : s'.pc p = .point .run := by
      obtain ⟨-, rfl⟩ := release_ok ho
      exact hp
    rw [← goto_self hp']
    exact .dropOther .release rfl rfl rfl ho
  · cases ho
    exact .go .sleep rfl rfl rfl
  · cases ho
    exact .go .kill rfl rfl rfl
  · split at ho
    · cases ho
    · cases ho
      exact .effect .exit rfl rfl rfl (.turnaround p) (keeps_of_state rfl) (fun _ _ => rfl) id
  · cases ho
    exact .go .wait rfl rfl rfl
  · cases ho
    exact .go .fork rfl rfl rfl
  · cases ho

theorem resume_move (ho : resume c p k s = .ok s') : Move c p s .go (.resume k) s' := by
  have hchan (q : Slot) (hq : q ≠ p) : update s.t.chan p none q = s.t.chan q :=
    update_of_ne hq ..
  cases k with
  | forkret =>
    obtain ⟨s₁, h₁, he⟩ := bind_ok ho
    cases he
    exact .drop .forkret rfl rfl rfl rfl h₁
  | yield x =>
    obtain ⟨s₁, h₁, he⟩ := bind_ok ho
    cases he
    exact .drop .yielded rfl rfl rfl rfl h₁
  | sleep l =>
    cases l with
    | ptable =>
      cases ho
      exact .effect .waited rfl rfl rfl (.chan p none) (keeps_of_state rfl) hchan id
    | other b =>
      cases ho
      exact .effect .slept rfl rfl rfl (.chan p none) (keeps_of_state rfl) hchan id
  | exit => cases ho

theorem wakeStep_move (ho : wakeStep c ch w (wakeNext p ch x) s = .ok s') :
    Move c p s .go (.wake ch w x) s' := by
  cases w with
  | lock =>
    obtain ⟨s₁, h₁, he⟩ := bind_ok ho
    cases he
    exact .take .wakeLock rfl rfl rfl h₁
  | scan j =>
    simp only [wakeStep] at ho
    split at ho
    · next hj =>
      cases ho
      exact .wake hj
    · next hj =>
      cases ho
      exact .go (.wakeEnd hj) rfl rfl rfl
  | unlock =>
    obtain ⟨s₁, h₁, he⟩ := bind_ok ho
    cases he
    exact .drop .wakeUnlock rfl rfl rfl rfl h₁

theorem waitRound_move (c : Cpu) (p : Slot) (s : St) :
    Move c p s .go .waitScan (waitRound p s) := by
  unfold waitRound
  split
  · next q k hw =>
    have hz := (waitScan_some hw).2
    refine .effect .waitEnd rfl rfl rfl (.reap hz) (keeps_reap p hz) (fun _ _ => rfl) fun hr => ?_
    have hpq : p ≠ q := by
      rintro rfl
      cases hz.symm.trans hr
    exact (update_of_ne hpq ..).trans hr
  · split
    · exact .go .waitEnd rfl rfl rfl
    · exact .go .waitSleep rfl rfl rfl

theorem sched_move (ho : sched c p k s = .ok s') : Move c p s .go (.sched k) s' := by
  unfold sched at ho
  obtain ⟨hl, ho⟩ := unless_ok ho
  obtain ⟨-, ho⟩ := unless_ok ho
  obtain ⟨hr, ho⟩ := unless_ok ho
  cases ho
  exact .sched (not_not.1 hl) hr

theorem take_move (ho : (acquire c .ptable s >>= fun s => Except.ok (goto p y s)) = .ok s')
    (hf : Flow a x .keep y) (hy : y.plain = true) (hs : x.settled = true) (hh : y.holds = true) :
    Move c p s a x s' := by
  obtain ⟨s₁, h₁, he⟩ := bind_ok ho
  cases he
  exact .take hf hy hs hh h₁

theorem procStep_move (hp : s.pc p = x) (ho : procStep c p s x a = .ok s') :
    Move c p s a x s' := by
  unfold procStep at ho
  split at ho
  · exact start_move hp ho
  · split at ho
    · cases ho
    · next np hn =>
      split at ho
      · next hm =>
        cases ho
        subst hm
        exact .effect .forkBody rfl rfl rfl (.adopt p np) (keeps_of_state rfl) (fun _ _ => rfl) id
      · next hm =>
        cases ho
        rw [Bool.not_eq_true] at hm
        subst hm
        exact .child .forkFail rfl rfl rfl hn nofun nofun
  · exact take_move ho .forkReadyLock rfl rfl rfl
  · obtain ⟨s₁, h₁, he⟩ := bind_ok ho
    cases he
    exact .takeOther .reacquire rfl rfl rfl h₁
  · obtain ⟨s₁, h₁, he⟩ := bind_ok ho
    cases he
    exact .drop .unlock rfl rfl rfl rfl h₁
  · exact take_move ho .yieldLock rfl rfl rfl
  · cases ho
    exact .yield
  · exact take_move ho .sleepLock rfl rfl rfl
  · obtain ⟨s₁, h₁, he⟩ := bind_ok ho
    cases he
    exact .dropOther .sleepUnlock rfl rfl rfl h₁
  · cases ho
    exact .chan
  · cases ho
    exact .sleep
  · exact sched_move ho
  · exact resume_move ho
  · exact wakeStep_move ho
  · exact take_move ho .killLock rfl rfl rfl
  · next pid =>
    cases ho
    refine .effect .killScan rfl rfl rfl (.kill pid) (keeps_kill p pid s.t) (fun q _ => ?_) fun hr => ?_
    · rcases kill_cases pid s.t with ⟨-, hk⟩ | ⟨q', -, -, hk⟩ <;> rw [hk]
    · rcases kill_cases pid s.t with ⟨-, hk⟩ | ⟨q, -, -, hk⟩
      · rw [hk]
        exact hr
      · rw [hk]
        grind
  · exact take_move ho .exitLock rfl rfl rfl
  · cases ho
    exact .exit
  · exact take_move ho .waitLock rfl rfl rfl
  · cases ho
    exact waitRound_move c p s
  · exact take_move ho .forkLock rfl rfl rfl
  · split at ho
    · cases ho
      exact .go .forkNone rfl rfl rfl
    · next np t ha =>
      cases ho
      exact .alloc ha
  · split at ho
    · cases ho
    · next np hn =>
      cases ho
      exact .child .forkReady rfl rfl rfl hn nofun nofun
  · cases ho

end Proc

section Edits
variable {s s' : St} {c : Cpu} {p : Slot}

theorem Edit.acquired (ho : acquire c l s = .ok s') (ht : t = s'.t) : Edit c s t := by
  obtain ⟨-, rfl⟩ := acquire_ok ho
  rw [ht]
  exact .keep

theorem Edit.released (ho : release c l s = .ok s') (ht : t = s'.t) : Edit c s t := by
  obtain ⟨-, rfl⟩ := release_ok ho
  rw [ht]
  exact .keep

theorem Move.edit (hc : s.spc c = .away p) (hp : s.pc p = x) (h : Move c p s a x s') :
    Edit c s s'.t := by
  cases h with
  | go => exact .keep
  | take _ _ _ _ ho => exact .acquired ho rfl
  | drop _ _ _ _ _ ho => exact .released ho rfl
  | takeOther _ _ _ _ ho => exact .acquired ho rfl
  | dropOther _ _ _ _ ho => exact .released ho rfl
  | effect _ _ _ _ he => exact he
  | child _ _ _ _ hn => exact .child hn _
  | alloc ha => exact .alloc ha hc hp
  | wake => exact .wake _ _
  | chan => exact .chan p _
  | sleep => exact .own hc (by rw [hp]; rfl) .sleeping
  | yield => exact .own hc (by rw [hp]; rfl) .runnable
  | exit => exact .exit hc (by rw [hp]; rfl)
  | sched => exact .keep

theorem edit_intr (ho : wakeStep c ch w (intrNext c ch) s = .ok s') : Edit c s s'.t := by
  cases w with
  | lock =>
    obtain ⟨s₁, h₁, he⟩ := bind_ok ho
    cases he
    exact .acquired h₁ rfl
  | scan j =>
    simp only [wakeStep] at ho
    split at ho
    · cases ho
      exact .wake (some ch) _
    · cases ho
      exact .keep
  | unlock =>
    obtain ⟨s₁, h₁, he⟩ := bind_ok ho
    cases he
    exact .released h₁ rfl

theorem edit_schedStep (ho : schedStep c s (s.spc c) a = .ok s') : Edit c s s'.t := by
  unfold schedStep at ho
  split at ho
  · obtain ⟨s₁, h₁, he⟩ := bind_ok ho
    cases he
    exact .acquired h₁ rfl
  · cases ho
    exact .keep
  · next hx =>
    dsimp only at ho
    split at ho
    · cases ho
      exact .scan hx _
    · cases ho
      exact .scan hx _
  · cases ho
    exact .keep
  · cases ho
    exact .keep
  · next hx =>
    cases ho
    exact .mark hx
  · cases ho
    exact .keep
  · cases ho
    exact .keep
  · next hx =>
    cases ho
    exact .account hx _ _
  · cases ho
    exact .keep
  · obtain ⟨s₁, h₁, he⟩ := bind_ok ho
    cases he
    exact .released h₁ rfl
  · exact edit_intr ho
  · cases ho

theorem edit_step (ho : step s (c, a) = .ok s') : Edit c s s'.t := by
  unfold step at ho
  split at ho
  · next p hc => exact (procStep_move rfl ho).edit hc rfl
  · exact edit_schedStep ho

end Edits

end Xv6.Sched
