import Xv6.Param
import Mathlib.Data.List.FinRange
import Mathlib.Logic.Function.Basic

namespace Xv6.Proc
open Function
set_option autoImplicit true

abbrev nProc : Nat := 64
abbrev defaultPriority : Int := 16
abbrev minPriority : Int := 0
abbrev maxPriority : Int := 31

abbrev Slot := Fin nProc

inductive ProcState where
  | unused
  | embryo
  | sleeping
  | runnable
  | running
  | zombie
  deriving DecidableEq, Repr

/-- What processes sleep on: a `struct proc` or another object. -/
inductive Chan where
  | proc (p : Slot)
  | addr (a : Nat)
  deriving DecidableEq, Repr

/-- The process table, an array for each field used here, and `nextpid`, `ticks` and `initproc`. -/
structure Ptable where
  state : Slot → ProcState
  pid : Slot → UInt32
  parent : Slot → Option Slot
  chan : Slot → Option Chan
  killed : Slot → Bool
  priority : Slot → Int
  waitTime : Slot → UInt32
  runTime : Slot → UInt32
  turnaroundTime : Slot → UInt32
  creationTime : Slot → UInt32
  lastScheduled : Slot → UInt32
  nextpid : UInt32
  ticks : UInt32
  initproc : Slot

/-- The first slot at which a scan of `ptable.proc` stops. -/
def findSlot (f : Slot → Bool) : Option Slot :=
  (List.finRange nProc).find? f

theorem findSlot_some (h : findSlot f = some p) : f p = true :=
  List.find?_some h

theorem findSlot_none : findSlot f = none ↔ ∀ p, f p = false := by
  simp [findSlot, List.find?_eq_none]

/-- The part of `allocproc` done under `ptable.lock`. -/
def allocSlot (t : Ptable) : Option (Slot × Ptable) :=
  match findSlot fun p => t.state p = .unused with
  | none => none
  | some p => some (p, { t with
      state := update t.state p .embryo
      pid := update t.pid p t.nextpid
      nextpid := t.nextpid + 1
      priority := update t.priority p defaultPriority
      waitTime := update t.waitTime p 0
      runTime := update t.runTime p 0
      turnaroundTime := update t.turnaroundTime p 0
      creationTime := update t.creationTime p t.ticks
      lastScheduled := update t.lastScheduled p t.ticks })

def setState (p : Slot) (x : ProcState) (t : Ptable) : Ptable :=
  { t with state := update t.state p x }

@[simp] theorem setState_self (p : Slot) (x : ProcState) (t : Ptable) :
    (setState p x t).state p = x :=
  update_self ..

theorem setState_of_ne (h : q ≠ p) (x : ProcState) (t : Ptable) :
    (setState p x t).state q = t.state q :=
  update_of_ne h ..

/-- What `fork` copies to its child outside `ptable.lock`. -/
def adopt (p np : Slot) (t : Ptable) : Ptable :=
  { t with
    parent := update t.parent np (some p)
    priority := update t.priority np (t.priority p) }

/-- Where `fork` runs out of memory, if it does. -/
inductive Memory where
  | enough
  | noStack
  | noPages
  deriving DecidableEq, Repr

/-- `fork` by process `p`: the child's slot and pid, if there is one. -/
def fork (p : Slot) (mem : Memory) (t : Ptable) : Option (Slot × UInt32) × Ptable :=
  match allocSlot t with
  | none => (none, t)
  | some (np, t) =>
    match mem with
    | .noStack => (none, setState np .unused t)
    | .noPages => (none, setState np .unused t)
    | .enough =>
      let t := adopt p np t
      (some (np, t.pid np), setState np .runnable t)

/-- The body of the loop of `wakeup1`. -/
def wakeOne (ch : Option Chan) (t : Ptable) (p : Slot) : Ptable :=
  if t.state p = .sleeping ∧ t.chan p = ch then setState p .runnable t else t

def wakeup1 (ch : Option Chan) (t : Ptable) : Ptable :=
  (List.finRange nProc).foldl (wakeOne ch) t

/-- The body of the loop of `exit` that passes abandoned children to init. -/
def passOne (cur : Slot) (t : Ptable) (p : Slot) : Ptable :=
  if t.parent p = some cur then
    let t := { t with parent := update t.parent p (some t.initproc) }
    if t.state p = .zombie then wakeup1 (some (.proc t.initproc)) t else t
  else t

/-- `exit` from its `acquire(&ptable.lock)` to its call of `sched`. -/
def exit (cur : Slot) (t : Ptable) : Ptable :=
  let t := wakeup1 ((t.parent cur).map .proc) t
  let t := (List.finRange nProc).foldl (passOne cur) t
  setState cur .zombie t

def turnaround (cur : Slot) (t : Ptable) : Ptable :=
  { t with turnaroundTime :=
      update t.turnaroundTime cur (t.ticks - t.creationTime cur) }

inductive Waited where
  | reaped (p : Slot) (pid : UInt32)
  | failed
  | asleep
  deriving DecidableEq, Repr

/-- The scan of `wait`: an exited child, and whether a child was seen. -/
def waitScan (t : Ptable) (cur : Slot) : List Slot → Bool → Option Slot × Bool
  | [], havekids => (none, havekids)
  | p :: ps, havekids =>
    if t.parent p = some cur then
      if t.state p = .zombie then (some p, true) else waitScan t cur ps true
    else waitScan t cur ps havekids

def reap (p : Slot) (t : Ptable) : Ptable :=
  { t with
    pid := update t.pid p 0
    parent := update t.parent p none
    killed := update t.killed p false
    state := update t.state p .unused }

/-- `sleep` from `p->chan = chan` to its call of `sched`. -/
def sleepOn (p : Slot) (ch : Chan) (t : Ptable) : Ptable :=
  { t with
    chan := update t.chan p (some ch)
    state := update t.state p .sleeping }

def wait (cur : Slot) (t : Ptable) : Waited × Ptable :=
  match waitScan t cur (List.finRange nProc) false with
  | (some p, _) => (.reaped p (t.pid p), reap p t)
  | (none, havekids) =>
    if !havekids || t.killed cur then (.failed, t) else (.asleep, sleepOn cur (.proc cur) t)

/-- The scheduler enters `p`; coming back from `sleep` clears `p->chan`. -/
def run (p : Slot) (t : Ptable) : Ptable :=
  { t with
    chan := update t.chan p none
    state := update t.state p .running }

def kill (pid : UInt32) (t : Ptable) : Int × Ptable :=
  match findSlot fun p => t.pid p = pid with
  | none => (-1, t)
  | some p =>
    (0, { t with
      killed := update t.killed p true
      state := update t.state p
        (if t.state p = .sleeping then .runnable else t.state p) })

def setpriority (pid : UInt32) (priority : Int) (t : Ptable) : Int × Ptable :=
  if priority < minPriority ∨ priority > maxPriority then (-1, t)
  else
    match findSlot fun p => t.pid p = pid with
    | none => (-1, t)
    | some p => (0, { t with priority := update t.priority p priority })

structure Pstat where
  pid : UInt32
  priority : Int
  waitTime : UInt32
  runTime : UInt32
  turnaroundTime : UInt32
  deriving DecidableEq, Repr

/-- `getstats`: its result, what it copied (`copyout` may fail), the table. -/
def getstats (pid : UInt32) (copyout : Bool) (t : Ptable) : Int × Option Pstat × Ptable :=
  match findSlot fun p => t.pid p = pid with
  | none => (-1, none, t)
  | some p =>
    if copyout then
      let stats : Pstat :=
        { pid := t.pid p
          priority := t.priority p
          waitTime := t.waitTime p
          runTime := t.runTime p
          turnaroundTime :=
            if t.state p = .zombie ∨ t.state p = .unused then t.turnaroundTime p
            else t.ticks - t.creationTime p }
      (0, some stats, t)
    else (-1, none, t)

/-- The scheduler's loop that charges every process since the last round. -/
def chargeOne (t : Ptable) (p : Slot) : Ptable :=
  if t.state p ≠ .unused ∧ t.lastScheduled p ≠ 0 then
    let elapsed := t.ticks - t.lastScheduled p
    { t with
      runTime := if t.state p = .running then
        update t.runTime p (t.runTime p + elapsed) else t.runTime
      waitTime := if t.state p = .runnable then
        update t.waitTime p (t.waitTime p + elapsed) else t.waitTime
      lastScheduled := update t.lastScheduled p t.ticks }
  else t

def charge (t : Ptable) : Ptable :=
  (List.finRange nProc).foldl chargeOne t

/-- The scheduler's choice: the first runnable one of the best priority. -/
def chooseOne (t : Ptable) (chosen : Option Slot) (p : Slot) : Option Slot :=
  if t.state p = .runnable then
    match chosen with
    | none => some p
    | some c => if t.priority p < t.priority c then some p else some c
  else chosen

def choose (t : Ptable) : Option Slot :=
  (List.finRange nProc).foldl (chooseOne t) none

/-- `userinit`, up to `p->state`: process 1 in the first slot. -/
def userinit (ticks : UInt32) : Ptable where
  state := update (fun _ => .unused) 0 .runnable
  pid := update (fun _ => 0) 0 1
  parent _ := none
  chan _ := none
  killed _ := false
  priority := update (fun _ => 0) 0 defaultPriority
  waitTime _ := 0
  runTime _ := 0
  turnaroundTime _ := 0
  creationTime := update (fun _ => 0) 0 ticks
  lastScheduled := update (fun _ => 0) 0 ticks
  nextpid := 2
  ticks := ticks
  initproc := 0

def woken (ch : Option Chan) (t : Ptable) (p : Slot) : ProcState :=
  if t.state p = .sleeping ∧ t.chan p = ch then .runnable else t.state p

theorem foldl_wakeOne (l : List Slot) (t : Ptable) :
    l.foldl (wakeOne ch) t = { t with
      state := fun p => if p ∈ l then woken ch t p else t.state p } := by
  induction l generalizing t with
  | nil => simp
  | cons q l ih =>
    rw [List.foldl_cons, ih, wakeOne]
    split
    · next hq =>
      simp only [setState, Ptable.mk.injEq, and_true]
      funext p
      by_cases hp : p = q
      · subst hp
        simp [woken, hq]
      · simp [woken, hp]
    · next hq =>
      simp only [Ptable.mk.injEq, and_true]
      funext p
      by_cases hp : p = q
      · subst hp
        simp [woken, hq]
      · simp [hp]

theorem wakeup1_eq (ch : Option Chan) (t : Ptable) :
    wakeup1 ch t = { t with state := woken ch t } := by
  rw [wakeup1, foldl_wakeOne]
  simp

theorem woken_zombie : woken ch t p = .zombie ↔ t.state p = .zombie := by
  rw [woken]
  split
  · next h => simp [h.1]
  · rfl

theorem woken_idem (h : t'.chan = t.chan) (hs : t'.state p = woken ch t p) :
    woken ch t' p = woken ch t p := by
  simp only [woken] at hs ⊢
  rw [h, hs]
  split <;> simp_all

/-- The loop of `exit` over the children of `cur`, with those in `done` passed to init. -/
structure Passed (cur : Slot) (done : Slot → Prop) (t t' : Ptable) : Prop where
  frame : t' = { t with parent := t'.parent, state := t'.state }
  child : ∀ p, done p → t.parent p = some cur → t'.parent p = some t.initproc
  other : ∀ p, (done p → t.parent p ≠ some cur) → t'.parent p = t.parent p
  state : (∀ p, t'.state p = woken (some (.proc t.initproc)) t p) ∨
    t'.state = t.state ∧ ∀ p, done p → t.parent p = some cur → t.state p ≠ .zombie

theorem Passed.zombie (h : Passed cur done t t') : t'.state p = .zombie ↔ t.state p = .zombie := by
  rcases h.state with hw | ⟨hs, -⟩
  · rw [hw, woken_zombie]
  · rw [hs]

theorem Passed.one (h : Passed cur done t t') (hc : cur ≠ t.initproc) (q : Slot) :
    Passed cur (fun p => done p ∨ p = q) t (passOne cur t' q) := by
  have hinit : t'.initproc = t.initproc := by rw [h.frame]
  have hchan : t'.chan = t.chan := by rw [h.frame]
  rw [passOne]
  split
  · next hq =>
    have hq' : t.parent q = some cur ∧ ¬done q := by
      by_cases hd : done q ∧ t.parent q = some cur
      · rw [h.child q hd.1 hd.2, Option.some.injEq] at hq
        exact absurd hq.symm hc
      · have hp := h.other q fun hd' he => hd ⟨hd', he⟩
        exact ⟨hp ▸ hq, fun hd' => hd ⟨hd', hp ▸ hq⟩⟩
    have hchild (p : Slot) (hp : done p ∨ p = q) (he : t.parent p = some cur) :
        update t'.parent q (some t'.initproc) p = some t.initproc := by
      by_cases hpq : p = q
      · rw [hpq, update_self, hinit]
      · rw [update_of_ne hpq]
        exact h.child p (hp.resolve_right hpq) he
    have hother (p : Slot) (hp : done p ∨ p = q → t.parent p ≠ some cur) :
        update t'.parent q (some t'.initproc) p = t.parent p := by
      have hpq : p ≠ q := by
        rintro rfl
        exact hp (.inr rfl) hq'.1
      rw [update_of_ne hpq]
      exact h.other p fun hd => hp (.inl hd)
    have hzombie (hz : t'.state q ≠ .zombie) (p : Slot) (hp : done p ∨ p = q)
        (he : ∀ p, done p → t.parent p = some cur → t.state p ≠ .zombie)
        (hp' : t.parent p = some cur) : t.state p ≠ .zombie := by
      rcases hp with hd | rfl
      · exact he p hd hp'
      · exact fun hs => hz (h.zombie.2 hs)
    dsimp only
    split
    · next hz =>
      rw [wakeup1_eq]
      refine ⟨?_, hchild, hother, .inl fun p => ?_⟩
      · rw [h.frame]
      · rcases h.state with hw | ⟨hs, -⟩
        · rw [hinit]
          exact woken_idem hchan (hw p)
        · simp only [woken, hs, hchan, hinit]
    · next hz =>
      refine ⟨?_, hchild, hother, ?_⟩
      · rw [h.frame]
      · rcases h.state with hw | ⟨hs, hd⟩
        · exact .inl hw
        · exact .inr ⟨hs, fun p hp hp' => hzombie hz p hp hd hp'⟩
  · next hq =>
    have hq' {p : Slot} (hp : p = q) (he : t.parent p = some cur) : done p := by
      by_contra hd
      rw [← hp, h.other p fun hd' => absurd hd' hd] at hq
      exact hq he
    refine ⟨h.frame, ?_, ?_, ?_⟩
    · intro p hp he
      exact h.child p (hp.elim id fun hpq => hq' hpq he) he
    · intro p hp
      exact h.other p fun hd => hp (.inl hd)
    · refine h.state.imp_right fun ⟨hs, hd⟩ => ⟨hs, fun p hp he => ?_⟩
      exact hd p (hp.elim id fun hpq => hq' hpq he) he

theorem Passed.foldl (h : Passed cur done t t') (hc : cur ≠ t.initproc) (l : List Slot) :
    Passed cur (fun p => done p ∨ p ∈ l) t (l.foldl (passOne cur) t') := by
  induction l generalizing done t' with
  | nil => simpa using h
  | cons q l ih =>
    have hl := ih (h.one hc q)
    simp only [or_assoc] at hl
    simpa only [List.foldl_cons, List.mem_cons] using hl

theorem passed (hc : cur ≠ t.initproc) :
    Passed cur (fun _ => True) t ((List.finRange nProc).foldl (passOne cur) t) := by
  have h₀ : Passed cur (fun _ => False) t t :=
    ⟨rfl, fun _ hf => hf.elim, fun _ _ => rfl, .inr ⟨rfl, fun _ hf => hf.elim⟩⟩
  simpa only [List.mem_finRange, or_true] using h₀.foldl hc (List.finRange nProc)

theorem woken_cases (ch : Option Chan) (t : Ptable) (p : Slot) :
    woken ch t p = t.state p ∨ t.state p = .sleeping ∧ woken ch t p = .runnable := by
  rw [woken]
  split
  · next h => exact .inr ⟨h.1, rfl⟩
  · exact .inl rfl

theorem woken_sleeping (h : woken ch t p = .sleeping) : t.state p = .sleeping ∧ t.chan p ≠ ch := by
  rw [woken] at h
  split at h
  · cases h
  · next hn => exact ⟨h, fun hc => hn ⟨h, hc⟩⟩

/-- Sleeping processes of `t` may be runnable in `t'`. -/
def Wakes (t t' : Ptable) : Prop :=
  ∀ p, t'.state p = t.state p ∨ t.state p = .sleeping ∧ t'.state p = .runnable

theorem wakes_wakeup1 (ch : Option Chan) (t : Ptable) : Wakes t (wakeup1 ch t) := by
  rw [wakeup1_eq]
  exact woken_cases ch t

theorem wakes_of_state (h : t'.state = t.state) : Wakes t t' :=
  fun p => .inl (congrFun h p)

theorem Wakes.eq_iff (h : Wakes t t') (hx : x ≠ .sleeping) (hy : x ≠ .runnable) :
    t'.state p = x ↔ t.state p = x := by
  rcases h p with he | ⟨hs, hr⟩
  · rw [he]
  · rw [hs, hr]
    exact ⟨fun h => absurd h.symm hy, fun h => absurd h.symm hx⟩

theorem Wakes.running (h : Wakes t t') (p : Slot) :
    t'.state p = .running ↔ t.state p = .running :=
  h.eq_iff nofun nofun

theorem Wakes.embryo (h : Wakes t t') (p : Slot) : t'.state p = .embryo ↔ t.state p = .embryo :=
  h.eq_iff nofun nofun

theorem Wakes.runnable (h : Wakes t t') (hp : t.state p = .runnable) :
    t'.state p = .runnable := by
  rcases h p with he | ⟨-, hr⟩
  · rw [he, hp]
  · exact hr

theorem wakes_wakeOne (ch : Option Chan) (t : Ptable) (p : Slot) : Wakes t (wakeOne ch t p) := by
  intro q
  unfold wakeOne
  split
  · next h =>
    by_cases hq : q = p
    · subst hq
      exact .inr ⟨h.1, setState_self ..⟩
    · exact .inl (setState_of_ne hq ..)
  · exact .inl rfl

theorem Wakes.trans (h : Wakes t t₁) (h₁ : Wakes t₁ t₂) : Wakes t t₂ := by
  intro p
  rcases h p with he | ⟨hs, hr⟩
  · rw [← he]
    exact h₁ p
  · rcases h₁ p with he | ⟨hs', -⟩
    · exact .inr ⟨hs, he.trans hr⟩
    · cases hr.symm.trans hs'

theorem wakes_passOne (cur : Slot) (t : Ptable) (p : Slot) : Wakes t (passOne cur t p) := by
  unfold passOne
  split
  · dsimp only
    split
    · exact wakes_wakeup1 _ { t with parent := update t.parent p (some t.initproc) }
    · exact fun _ => .inl rfl
  · exact fun _ => .inl rfl

theorem wakes_exit (t : Ptable) (h : p ≠ cur) :
    (exit cur t).state p = t.state p ∨
      t.state p = .sleeping ∧ (exit cur t).state p = .runnable := by
  have hfold (l : List Slot) (t : Ptable) : Wakes t (l.foldl (passOne cur) t) := by
    induction l generalizing t with
    | nil => exact fun _ => .inl rfl
    | cons q l ih => exact (wakes_passOne cur t q).trans (ih _)
  rw [exit, setState_of_ne h]
  exact (wakes_wakeup1 _ t).trans (hfold _ _) p

theorem passOne_frame (cur : Slot) (t : Ptable) (p : Slot) :
    ∃ x y, passOne cur t p = { t with parent := x, state := y } := by
  unfold passOne
  split
  · dsimp only
    split
    · rw [wakeup1_eq]
      exact ⟨_, _, rfl⟩
    · exact ⟨_, t.state, rfl⟩
  · exact ⟨t.parent, t.state, rfl⟩

theorem exit_frame (cur : Slot) (t : Ptable) :
    ∃ x y, exit cur t = { t with parent := x, state := y } := by
  have hfold (l : List Slot) (t : Ptable) :
      ∃ x y, l.foldl (passOne cur) t = { t with parent := x, state := y } := by
    induction l generalizing t with
    | nil => exact ⟨t.parent, t.state, rfl⟩
    | cons q l ih =>
      obtain ⟨x, y, h⟩ := passOne_frame cur t q
      rw [List.foldl_cons, h]
      exact ih _
  rw [exit, wakeup1_eq]
  obtain ⟨x, y, h⟩ := hfold (List.finRange nProc) { t with state := woken ((t.parent cur).map .proc) t }
  rw [h]
  exact ⟨x, _, rfl⟩

theorem exit_chan (cur : Slot) (t : Ptable) : (exit cur t).chan = t.chan := by
  obtain ⟨x, y, h⟩ := exit_frame cur t
  rw [h]

theorem exit_state_self (cur : Slot) (t : Ptable) : (exit cur t).state cur = .zombie := by
  rw [exit]
  exact setState_self ..

/-- The locked part of `exit`: `cur` is a zombie, its children are init's, its parent is awake, and
so is init if it got an exited child. -/
structure Exited (cur : Slot) (t t' : Ptable) : Prop where
  frame : t' = { t with parent := t'.parent, state := t'.state }
  zombie : t'.state cur = .zombie
  child : ∀ p, t.parent p = some cur → t'.parent p = some t.initproc
  other : ∀ p, t.parent p ≠ some cur → t'.parent p = t.parent p
  state : ∀ p, p ≠ cur →
    t'.state p = t.state p ∨ t.state p = .sleeping ∧ t'.state p = .runnable
  asleep : ∀ p, p ≠ cur → t'.state p = .sleeping → t.chan p ≠ (t.parent cur).map .proc ∧
    (t.chan p = some (.proc t.initproc) → ∀ q, t.parent q = some cur → t.state q ≠ .zombie)

theorem exited (hc : cur ≠ t.initproc) : Exited cur t (exit cur t) := by
  rw [exit, wakeup1_eq]
  have hp := passed (t := { t with state := woken ((t.parent cur).map .proc) t }) hc
  have hpass := hp.state
  generalize (List.finRange nProc).foldl (passOne cur) _ = t₂ at hp hpass
  constructor
  · rw [hp.frame]
    rfl
  · exact setState_self ..
  · exact fun p => hp.child p trivial
  · exact fun p hne => hp.other p fun _ => hne
  · intro p hne
    rw [setState_of_ne hne]
    rcases hpass with hw | ⟨hs, -⟩
    · rw [hw]
      rcases woken_cases (some (.proc t.initproc))
        { t with state := woken ((t.parent cur).map .proc) t } p with he | ⟨hs, he⟩
      · rw [he]
        exact woken_cases ..
      · refine .inr ⟨?_, he⟩
        exact (woken_sleeping hs).1
    · rw [hs]
      exact woken_cases ..
  · intro p hne hs
    rw [setState_of_ne hne] at hs
    rcases hpass with hw | ⟨he, hd⟩
    · rw [hw] at hs
      obtain ⟨hs, hi⟩ := woken_sleeping hs
      exact ⟨(woken_sleeping hs).2, fun h => absurd h hi⟩
    · rw [he] at hs
      refine ⟨(woken_sleeping hs).2, fun _ q hq hz => ?_⟩
      exact hd q trivial hq (woken_zombie.2 hz)

theorem allocSlot_some (h : allocSlot t = some (p, t')) :
    t.state p = .unused ∧ t'.state = update t.state p .embryo ∧
      t'.pid = update t.pid p t.nextpid ∧ t'.nextpid = t.nextpid + 1 ∧
      t'.parent = t.parent ∧ t'.chan = t.chan ∧ t'.killed = t.killed ∧
      t'.initproc = t.initproc := by
  unfold allocSlot at h
  split at h
  · cases h
  · next q hq =>
    have hs := findSlot_some hq
    cases h
    exact ⟨of_decide_eq_true hs, rfl, rfl, rfl, rfl, rfl, rfl, rfl⟩

theorem waitScan_some (h : waitScan t cur l kids = (some p, k)) :
    t.parent p = some cur ∧ t.state p = .zombie := by
  induction l generalizing kids with
  | nil => cases h
  | cons q l ih =>
    rw [waitScan] at h
    split at h
    · next hq =>
      split at h
      · next hz =>
        cases h
        exact ⟨hq, hz⟩
      · exact ih h
    · exact ih h

theorem waitScan_none (h : waitScan t cur l kids = (none, k)) :
    (k = true ↔ kids = true ∨ ∃ p ∈ l, t.parent p = some cur) ∧
      ∀ p ∈ l, t.parent p = some cur → t.state p ≠ .zombie := by
  induction l generalizing kids with
  | nil =>
    cases h
    simp
  | cons q l ih =>
    rw [waitScan] at h
    split at h
    · next hq =>
      split at h
      · cases h
      · next hz =>
        obtain ⟨hk, hl⟩ := ih h
        refine ⟨?_, ?_⟩
        · simp [hk, hq]
        · intro p hp he
          rcases List.mem_cons.1 hp with rfl | hp
          · exact hz
          · exact hl p hp he
    · next hq =>
      obtain ⟨hk, hl⟩ := ih h
      refine ⟨?_, ?_⟩
      · simp [hk, hq]
      · intro p hp he
        rcases List.mem_cons.1 hp with rfl | hp
        · exact absurd he hq
        · exact hl p hp he

/-- A round of `wait` reaps a child, fails, or sleeps with no exited child. -/
theorem wait_cases (cur : Slot) (t : Ptable) :
    (∃ p, t.parent p = some cur ∧ t.state p = .zombie ∧
      wait cur t = (.reaped p (t.pid p), reap p t)) ∨
    (((∀ p, t.parent p ≠ some cur) ∨ t.killed cur = true) ∧ wait cur t = (.failed, t)) ∨
    ((∀ p, t.parent p = some cur → t.state p ≠ .zombie) ∧
      wait cur t = (.asleep, sleepOn cur (.proc cur) t)) := by
  unfold wait
  split
  · next p k hs =>
    obtain ⟨hp, hz⟩ := waitScan_some hs
    exact .inl ⟨p, hp, hz, rfl⟩
  · next k hs =>
    obtain ⟨hk, hz⟩ := waitScan_none hs
    split
    · next hf =>
      refine .inr (.inl ⟨?_, rfl⟩)
      rw [Bool.or_eq_true, Bool.not_eq_true'] at hf
      refine hf.imp_left fun hk' p hp => ?_
      rw [hk.2 (.inr ⟨p, List.mem_finRange p, hp⟩)] at hk'
      cases hk'
    · exact .inr (.inr ⟨fun p => hz p (List.mem_finRange p), rfl⟩)

theorem kill_cases (pid : UInt32) (t : Ptable) :
    ((∀ p, t.pid p ≠ pid) ∧ kill pid t = (-1, t)) ∨
    ∃ p, t.pid p = pid ∧ (kill pid t).1 = 0 ∧ (kill pid t).2 = { t with
      killed := update t.killed p true
      state := update t.state p
        (if t.state p = .sleeping then .runnable else t.state p) } := by
  unfold kill
  split
  · next hn =>
    rw [findSlot_none] at hn
    exact .inl ⟨fun p => of_decide_eq_false (hn p), rfl⟩
  · next p hp =>
    have hpid := findSlot_some hp
    exact .inr ⟨p, of_decide_eq_true hpid, rfl, rfl⟩

theorem setpriority_cases (pid : UInt32) (priority : Int) (t : Ptable) :
    setpriority pid priority t = (-1, t) ∨
    ∃ p, t.pid p = pid ∧ setpriority pid priority t =
      (0, { t with priority := update t.priority p priority }) := by
  unfold setpriority
  split
  · exact .inl rfl
  · split
    · exact .inl rfl
    · next p hp =>
      have hpid := findSlot_some hp
      exact .inr ⟨p, of_decide_eq_true hpid, rfl⟩

theorem getstats_cases (pid : UInt32) (copyout : Bool) (t : Ptable) :
    getstats pid copyout t = (-1, none, t) ∨
    ∃ p stats, t.pid p = pid ∧ getstats pid copyout t = (0, some stats, t) := by
  unfold getstats
  split
  · exact .inl rfl
  · next p hp =>
    have hpid := findSlot_some hp
    split
    · exact .inr ⟨p, _, of_decide_eq_true hpid, rfl⟩
    · exact .inl rfl

theorem charge_frame (t : Ptable) :
    ∃ r w l, charge t = { t with runTime := r, waitTime := w, lastScheduled := l } := by
  have hfold (l : List Slot) (t : Ptable) : ∃ r w o,
      l.foldl chargeOne t = { t with runTime := r, waitTime := w, lastScheduled := o } := by
    induction l generalizing t with
    | nil => exact ⟨t.runTime, t.waitTime, t.lastScheduled, rfl⟩
    | cons q l ih =>
      rw [List.foldl_cons, chargeOne]
      split
      · exact ih _
      · exact ih t
  exact hfold _ t

theorem charge_state (t : Ptable) : (charge t).state = t.state := by
  obtain ⟨r, w, l, h⟩ := charge_frame t
  rw [h]

theorem charge_chan (t : Ptable) : (charge t).chan = t.chan := by
  obtain ⟨r, w, l, h⟩ := charge_frame t
  rw [h]

theorem choose_some (h : choose t = some p) : t.state p = .runnable := by
  have hfold (l : List Slot) (o : Option Slot) (ho : ∀ q, o = some q → t.state q = .runnable)
      (h : l.foldl (chooseOne t) o = some p) : t.state p = .runnable := by
    induction l generalizing o with
    | nil => exact ho p h
    | cons q l ih =>
      refine ih (chooseOne t o q) (fun r hr => ?_) h
      have hor := ho r
      unfold chooseOne at hr
      grind
  exact hfold _ none nofun h

attribute [irreducible] charge choose wakeup1 exit

end Xv6.Proc
