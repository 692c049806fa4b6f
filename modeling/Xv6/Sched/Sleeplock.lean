import Xv6.Proc.Family
import Xv6.Sched.Monitor

namespace Xv6.Sched.Sleeplock
open Lib Proc Function
open Proc.Tree (Pids)
set_option autoImplicit true

/-- The fields of a sleep-lock, and the processes that have it. -/
structure Lk where
  locked : Bool
  pid : UInt32
  holds : Slot → Bool

def Lk.init : Lk where
  locked := false
  pid := 0
  holds _ := false

/-- What a process does next under `lk->lk` in the sleep-lock functions. -/
inductive Phase where
  | test
  | owner
  | acquired
  | clear
  | clearPid
  | woken
  | ask
  | answer (r : Bool)
  deriving DecidableEq

inductive Op where
  | acquiresleep
  | releasesleep
  | holdingsleep
  | go

structure Input where
  op : Op
  proc : Slot
  pid : UInt32

def enter (d : Lk) (i : Input) : Option (Lk × Phase) :=
  match i.op with
  | .acquiresleep => some (d, .test)
  | .releasesleep => some (d, .clear)
  | .holdingsleep => some (d, .ask)
  | .go => none

/-- The statements of the sleep-lock functions on the lock at `n`. -/
def statement (n : Nat) (d : Lk) (p : Slot) (pid : UInt32) : Phase → Lk × Out Phase
  | .test => if d.locked then (d, .sleep n .test) else ({ d with locked := true }, .stay .owner)
  | .owner => ({ d with pid := pid }, .stay .acquired)
  | .acquired => ({ d with holds := update d.holds p true }, .leave 0)
  | .clear =>
    ({ d with locked := false, holds := update d.holds p false }, .stay .clearPid)
  | .clearPid => ({ d with pid := 0 }, .wakeup n .woken)
  | .woken => (d, .leave 0)
  | .ask => (d, .stay (.answer (d.locked && d.pid == pid)))
  | .answer r => (d, .leave (if r then 1 else 0))

def run (n : Nat) (d : Lk) (x : Phase) (i : Input) : Option (Lk × Out Phase) :=
  match i.op with
  | .go => some (statement n d i.proc i.pid x)
  | _ => none

theorem run_some (h : run n d x i = some r) :
    i.op = .go ∧ r = statement n d i.proc i.pid x := by
  unfold run at h
  split at h
  · next hi => exact ⟨hi, (Option.some.inj h).symm⟩
  · cases h

def code (n a : Nat) : Code Lk Phase Input where
  lock := a
  chans := [n]
  enter := enter
  run d _ := run n d
  rests x := x = .test
  woke x := if x = .woken then some n else none
  enter_woke {d i d' x} h := by
    unfold enter at h
    split at h <;> cases h <;> rfl
  run_rests {d b x i d' m x'} h := by
    have he := (run_some h).2
    cases x <;> grind [statement]
  run_woke {d b x i d' o x' m} h ho hw := by
    have he := (run_some h).2
    cases x <;> grind [statement, Out.next]

def step (n a : Nat) (s : Mst Lk Phase) (e : Cpu × Event Op) : Except Fault (Mst Lk Phase) :=
  match e.2 with
  | .sys x => (code n a).step s (e.1, .sys x)
  | .code op =>
    match s.k.spc e.1 with
    | .away p => (code n a).step s (e.1, .code ⟨op, p, s.k.t.pid p⟩)
    | _ => .error .blocked

/-- Only a holder releases the lock, none exits with it, and pids stay below 2³¹. -/
def legal (s : Mst Lk Phase) (e : Cpu × Event Op) : Bool :=
  s.k.t.nextpid.toNat ≤ 2 ^ 31 &&
    match s.k.spc e.1, e.2 with
    | .away p, .code .releasesleep => s.data.holds p
    | .away p, .sys (.call .exit) => !s.data.holds p
    | _, _ => true

section Table
variable {k k' : St} {t : Ptable} {c : Cpu}

theorem Pids.mono (h : Pids k.t.state k.t.pid k.t.nextpid) (hn : t.nextpid = k.t.nextpid)
    (ht : ∀ q, t.state q ≠ .unused → k.t.state q ≠ .unused ∧ t.pid q = k.t.pid q) :
    Pids t.state t.pid t.nextpid := by
  constructor
  · intro p hp
    rw [hn, (ht p hp).2]
    exact h.issued p (ht p hp).1
  · intro p q hp hq he
    rw [(ht p hp).2, (ht q hq).2] at he
    exact h.distinct p q (ht p hp).1 (ht q hq).1 he

theorem edit_ids (h : Inv k) (he : Edit c k t) :
    (t.nextpid = k.t.nextpid ∧
      ∀ q, t.state q ≠ .unused → k.t.state q ≠ .unused ∧ t.pid q = k.t.pid q) ∨
    ∃ np, allocSlot k.t = some (np, t) := by
  have hset (p : Slot) (x : ProcState) (hp : k.t.state p ≠ .unused) :
      ∀ q, (setState p x k.t).state q ≠ .unused → k.t.state q ≠ .unused ∧ k.t.pid q = k.t.pid q := by
    intro q hq
    refine ⟨?_, rfl⟩
    by_cases hqp : q = p
    · rw [hqp]
      exact hp
    · rwa [setState_of_ne hqp] at hq
  cases he with
  | keep => exact .inl ⟨rfl, fun q hq => ⟨hq, rfl⟩⟩
  | wake ch p =>
    rw [wakeOne]
    split
    · next hs => exact .inl ⟨rfl, hset p .runnable (by rw [hs.1]; decide)⟩
    · exact .inl ⟨rfl, fun q hq => ⟨hq, rfl⟩⟩
  | kill pid =>
    rcases kill_cases pid k.t with ⟨-, hk⟩ | ⟨p, -, -, hk⟩
    · rw [hk]
      exact .inl ⟨rfl, fun q hq => ⟨hq, rfl⟩⟩
    · rw [hk]
      refine .inl ⟨rfl, fun q hq => ⟨?_, rfl⟩⟩
      grind
  | own hc hs x => exact .inl ⟨rfl, hset _ x (by rw [h.settled _ _ hc hs]; decide)⟩
  | chan p o => exact .inl ⟨rfl, fun q hq => ⟨hq, rfl⟩⟩
  | turnaround p => exact .inl ⟨rfl, fun q hq => ⟨hq, rfl⟩⟩
  | @exit p hc hs =>
    obtain ⟨x, y, hx⟩ := exit_frame p k.t
    refine .inl ⟨by rw [hx], fun q hq => ⟨?_, by rw [hx]⟩⟩
    by_cases hqp : q = p
    · rw [hqp, h.settled c p hc hs]
      decide
    · rcases wakes_exit k.t hqp with he | ⟨he, -⟩
      · rwa [he] at hq
      · rw [he]
        decide
  | @reap p hz =>
    refine .inl ⟨rfl, fun q hq => ?_⟩
    have hqp : q ≠ p := by
      rintro rfl
      exact hq (update_self ..)
    simp only [reap, update_of_ne hqp] at hq ⊢
    exact ⟨hq, trivial⟩
  | alloc ha => exact .inr ⟨_, ha⟩
  | adopt p np => exact .inl ⟨rfl, fun q hq => ⟨hq, rfl⟩⟩
  | child hn x => exact .inl ⟨rfl, hset _ x (by rw [h.forks.embryo _ _ hn]; decide)⟩
  | mark hc => exact .inl ⟨rfl, hset _ _ (by rw [h.chosen c _ (by rw [hc]; rfl)]; decide)⟩
  | scan hc l =>
    obtain ⟨r, w, o, hx⟩ := charge_frame k.t
    rw [hx]
    exact .inl ⟨rfl, fun q hq => ⟨hq, rfl⟩⟩
  | account hc r l => exact .inl ⟨rfl, fun q hq => ⟨hq, rfl⟩⟩

theorem pids_step (h : Inv k) (hp : Pids k.t.state k.t.pid k.t.nextpid)
    (hn : k.t.nextpid.toNat ≤ 2 ^ 31) (ho : Sched.step k (c, a) = .ok k') :
    Pids k'.t.state k'.t.pid k'.t.nextpid := by
  rcases edit_ids h (edit_step ho) with ⟨hnext, ht⟩ | ⟨np, ha⟩
  · exact Pids.mono hp hnext ht
  · obtain ⟨-, hstate, hpid, hnext, -⟩ := allocSlot_some ha
    rw [hstate, hpid, hnext]
    apply hp.alloc
    rw [UInt32.toNat_add, UInt32.toNat_one]
    omega

theorem used_of_alive (h : alive x = true) : x ≠ .unused := by
  rintro rfl
  cases h

theorem pid_step (h : Inv k) (ho : Sched.step k (c, a) = .ok k')
    (hp : alive (k.t.state p) = true) (hp' : alive (k'.t.state p) = true) :
    k'.t.pid p = k.t.pid p := by
  rcases edit_ids h (edit_step ho) with ⟨-, ht⟩ | ⟨np, ha⟩
  · exact (ht p (used_of_alive hp')).2
  · obtain ⟨hu, -, hpid, -⟩ := allocSlot_some ha
    rw [hpid, update_of_ne]
    rintro rfl
    exact used_of_alive hp hu

end Table

/-- The process at this place is started and not in `exit`. -/
def Pc.serves : Pc → Bool
  | .exitLock => false
  | .exitScan => false
  | .sched .forkret => false
  | x => x.started

theorem Pc.serves.started {x : Pc} (h : Pc.serves x = true) : x.started = true := by
  unfold Pc.serves at h
  split at h
  · cases h
  · cases h
  · cases h
  · exact h

theorem Pc.within.serves {x : Pc} (h : x.within a) : Pc.serves x = true := by
  unfold Pc.serves
  split
  · rcases h with h | h <;> cases h
  · rcases h with h | h <;> cases h
  · rcases h with h | h <;> cases h
  · exact h.started

theorem Flow.serves (hf : Flow e x t y) (hx : Pc.serves x = true) (he : e ≠ .call .exit) :
    Pc.serves y = true := by
  cases hf with
  | exit => exact absurd rfl he
  | exitLock => cases hx
  | exitScan => cases hx
  | @sched k => cases k <;> first | rfl | cases hx
  | _ => rfl

section Step
variable {C : Code δ φ ι} {s s' : Mst δ φ} {k' : St} {c : Cpu} {p : Slot}

theorem serves_step (h : Mon C s) (hk : Sched.step s.k (c, a) = .ok k')
    (hp : Pc.serves (place s.k p) = true) (ha : s.k.spc c = .away p → a ≠ .call .exit) :
    Pc.serves (place k' p) = true := by
  have ht := tick_step h.inv hk
  by_cases hc : s.k.spc c = .away p
  · obtain ⟨t, hf, -⟩ := ht.flow p hc
    apply Flow.serves hf _ (ha hc)
    rwa [← place_eq rfl hf.ne_off]
  · rcases h.sleeps.place_other h.inv ht hc with he | ⟨hu, -⟩
    · rwa [he]
    · exact absurd hu (used_of_alive (h.sleeps.lives p (Pc.serves.started hp)))

end Step

def freeAt : Option Phase → Bool
  | some .owner => false
  | some .acquired => false
  | some .clear => false
  | some (.answer r) => !r
  | _ => true

def heldAt (mine : Bool) : Option Phase → Bool
  | some .owner => false
  | some .acquired => false
  | some .clear => mine
  | some .clearPid => false
  | some .woken => false
  | some (.answer r) => r == mine
  | _ => true

/-- The states of the lock, with `p` at `x` and no other under `lk->lk`. -/
inductive Owned (d : Lk) (pid : Slot → UInt32) (p : Slot) : Option Phase → Prop where
  | free (hl : d.locked = false) (hh : ∀ q, d.holds q = false) (hx : freeAt x = true) :
      Owned d pid p x
  | taking (hl : d.locked = true) (hh : ∀ q, d.holds q = false) : Owned d pid p (some .owner)
  | taken (hl : d.locked = true) (hh : ∀ q, d.holds q = false) (hpid : d.pid = pid p) :
      Owned d pid p (some .acquired)
  | held (o : Slot) (hl : d.locked = true) (hh : ∀ q, d.holds q = true ↔ q = o)
      (hpid : d.pid = pid o) (hx : heldAt (p = o) x = true) : Owned d pid p x

section Owned
variable {d : Lk} {pid pid' : Slot → UInt32} {p : Slot} {x : Phase}

theorem Owned.unique (h : Owned d pid p y) (hq : d.holds q = true) (hr : d.holds r = true) :
    q = r := by
  cases h with
  | free _ hh => cases (hh q).symm.trans hq
  | taking _ hh => cases (hh q).symm.trans hq
  | taken _ hh => cases (hh q).symm.trans hq
  | held o _ hh => exact ((hh q).1 hq).trans ((hh r).1 hr).symm

theorem Owned.answer (h : Owned d pid p (some (.answer r))) : r = true ↔ d.holds p = true := by
  cases h with
  | free _ hh hx =>
    cases r with
    | false => simp [hh p]
    | true => cases hx
  | held o _ hh _ hx =>
    rw [hh p, eq_of_beq hx]
    exact decide_eq_true_iff

theorem Owned.congr (h : Owned d pid p y)
    (hp : ∀ q, d.holds q = true ∨ q = p ∧ y.isSome = true → pid' q = pid q) :
    Owned d pid' p y := by
  cases h with
  | free hl hh hx => exact .free hl hh hx
  | taking hl hh => exact .taking hl hh
  | taken hl hh hpid => exact .taken hl hh (hpid.trans (hp p (.inr ⟨rfl, rfl⟩)).symm)
  | held o hl hh hpid hx => exact .held o hl hh (hpid.trans (hp o (.inl ((hh o).2 rfl))).symm) hx

theorem Owned.statement (h : Owned d pid p (some x))
    (hpid : ∀ q, d.holds q = true → pid q = pid p → q = p) :
    Owned (statement n d p (pid p) x).1 pid p (Sleeplock.statement n d p (pid p) x).2.next := by
  cases h with
  | free hl hh hx =>
    cases x with
    | test =>
      rw [Sleeplock.statement, if_neg (by rw [hl]; nofun)]
      exact .taking rfl hh
    | clearPid => exact .free hl hh rfl
    | woken => exact .free hl hh rfl
    | ask =>
      apply Owned.free hl hh
      simp [hl, Sleeplock.statement, Out.next, freeAt]
    | answer r => exact .free hl hh rfl
    | owner => cases hx
    | acquired => cases hx
    | clear => cases hx
  | taking hl hh => exact .taken hl hh rfl
  | taken hl hh hp =>
    refine .held p hl (fun q => ?_) hp (by simp [Sleeplock.statement, Out.next, heldAt])
    by_cases hq : q = p
    · simp [hq, Sleeplock.statement]
    · simp [hq, Sleeplock.statement, hh q]
  | held o hl hh hp hx =>
    cases x with
    | test =>
      rw [Sleeplock.statement, if_pos hl]
      exact .held o hl hh hp rfl
    | ask =>
      apply Owned.held o hl hh hp
      have hask : (d.pid == pid p) = decide (p = o) := by
        rw [hp, Bool.eq_iff_iff, beq_iff_eq, decide_eq_true_iff]
        constructor
        · exact fun he => (hpid o ((hh o).2 rfl) he).symm
        · rintro rfl
          rfl
      simp [hl, Sleeplock.statement, Out.next, heldAt, hask]
    | answer r => exact .held o hl hh hp rfl
    | clear =>
      have hpo : p = o := of_decide_eq_true hx
      apply Owned.free rfl _ rfl
      intro q
      by_cases hq : q = p
      · simp [hq, Sleeplock.statement]
      · have hne : d.holds q ≠ true := fun h => hq (((hh q).1 h).trans hpo.symm)
        simpa [hq, Sleeplock.statement] using hne
    | owner => cases hx
    | acquired => cases hx
    | clearPid => cases hx
    | woken => cases hx

theorem Owned.enter (h : Owned d pid p none) (hx : x = .test ∨ x = .clear ∨ x = .ask)
    (hc : x = .clear → d.holds p = true) : Owned d pid p (some x) := by
  cases h with
  | free hl hh =>
    apply Owned.free hl hh
    rcases hx with rfl | rfl | rfl
    · rfl
    · cases (hh p).symm.trans (hc rfl)
    · rfl
  | held o hl hh hpid =>
    apply Owned.held o hl hh hpid
    rcases hx with rfl | rfl | rfl
    · rfl
    · exact decide_eq_true ((hh p).1 (hc rfl))
    · rfl

def Idle (y : Option Phase) : Prop :=
  y = none ∨ y = some .test

theorem Owned.other (h : Owned d pid p y) (hy : Idle y) (hz : Idle z) : Owned d pid q z := by
  cases h with
  | free hl hh => rcases hz with rfl | rfl <;> exact .free hl hh rfl
  | taking => rcases hy with hy | hy <;> cases hy
  | taken => rcases hy with hy | hy <;> cases hy
  | held o hl hh hpid => rcases hz with rfl | rfl <;> exact .held o hl hh hpid rfl

/-- No process but `p` is under `lk->lk`. -/
def Rest (phase : Slot → Option Phase) (p : Slot) : Prop :=
  ∀ q, q ≠ p → Idle (phase q)

theorem Owned.all (h : Owned d pid p (phase p)) (hr : Rest phase p) (hq : Rest phase q) :
    Owned d pid q (phase q) := by
  by_cases he : q = p
  · rw [he]
    exact h
  · exact h.other (hq p fun hp => he hp.symm) (hr q he)

end Owned

structure Inv (n a : Nat) (s : Mst Lk Phase) : Prop where
  mon : Mon (code n a) s
  pids : Pids s.k.t.state s.k.t.pid s.k.t.nextpid
  serves : ∀ p, s.data.holds p = true → Pc.serves (place s.k p) = true
  owned : ∀ p, Rest s.phase p → Owned s.data s.k.t.pid p (s.phase p)
  free : s.data.locked = false →
    Silent s n ∨ ∃ p, s.phase p = some .clearPid ∨ s.phase p = some .woken

section Lock
variable {n a : Nat} {s s' : Mst Lk Phase} {c : Cpu} {p : Slot}

theorem pids_boot (ticks : UInt32) :
    Pids (userinit ticks).state (userinit ticks).pid (userinit ticks).nextpid := by
  have hzero (p : Slot) (hp : (userinit ticks).state p ≠ .unused) : p = 0 := by
    by_contra hne
    apply hp
    simp only [userinit, update_of_ne hne]
  constructor
  · intro p hp
    rw [hzero p hp]
    exact Nat.one_lt_two
  · intro p q hp hq _
    rw [hzero p hp, hzero q hq]

theorem inv_boot (n a : Nat) (ticks : UInt32) : Inv n a (Code.boot ticks .init) := by
  constructor
  · exact mon_boot ..
  · exact pids_boot ticks
  · exact nofun
  · exact fun p _ => .free rfl (fun _ => rfl) rfl
  · intro _
    left
    rintro p (⟨-, hc⟩ | hs)
    · cases hc
    · cases hs

theorem rest_holder (h : Mon (code n a) s) (hx : s.phase p = some x) (ht : x ≠ .test) :
    Rest s.phase p := by
  intro q hq
  cases hy : s.phase q with
  | none => exact .inl rfl
  | some y =>
    right
    by_contra hne
    have hyt : y ≠ .test := fun he => hne (congrArg some he)
    obtain ⟨d, hd, hl⟩ := h.holder hy (decide_eq_false hyt)
    obtain ⟨d', hd', hl'⟩ := h.holder hx (decide_eq_false ht)
    obtain rfl := Option.some.inj (hl.symm.trans hl')
    cases hd.symm.trans hd'
    exact hq rfl

theorem exists_rest (h : Mon (code n a) s) : ∃ p, Rest s.phase p := by
  by_cases hx : ∃ p x, s.phase p = some x ∧ x ≠ .test
  · obtain ⟨p, x, hp, ht⟩ := hx
    exact ⟨p, rest_holder h hp ht⟩
  · refine ⟨0, fun q _ => ?_⟩
    cases hy : s.phase q with
    | none => exact .inl rfl
    | some y =>
      right
      by_contra hne
      exact hx ⟨q, y, hy, fun he => hne (congrArg some he)⟩

/-- The steps of the kernel with the functions of the lock in it. -/
theorem step_cases (ho : step n a s (c, e) = .ok s') :
    (∃ x k', e = .sys x ∧ (code n a).admits s c x = true ∧ Sched.step s.k (c, x) = .ok k' ∧
      s' = { s with k := k' }) ∨
    (∃ op p x k', e = .code op ∧ s.k.spc c = .away p ∧ s.k.pc p = .point .run ∧
      s.phase p = none ∧ (x = .test ∨ x = .clear ∧ op = .releasesleep ∨ x = .ask) ∧
      Sched.step s.k (c, .call (.acquire a)) = .ok k' ∧
      s' = { k := k', data := s.data, phase := update s.phase p (some x) }) ∨
    ∃ p x k', e = .code .go ∧ s.k.spc c = .away p ∧ s.k.pc p = .point .run ∧
      s.phase p = some x ∧
      (code n a).perform c s.k (statement n s.data p (s.k.t.pid p) x).2 = .ok k' ∧
      s' = { k := k', data := (statement n s.data p (s.k.t.pid p) x).1
             phase := update s.phase p (statement n s.data p (s.k.t.pid p) x).2.next } := by
  unfold step at ho
  cases e with
  | sys x =>
    rcases Code.step_cases ho with ⟨y, k', he, ha, hk, hs⟩ | ⟨_, _, _, _, _, he, -⟩ |
      ⟨_, _, _, _, _, _, he, -⟩
    · cases he
      exact .inl ⟨x, k', rfl, ha, hk, hs⟩
    · cases he
    · cases he
  | code op =>
    right
    dsimp only at ho
    split at ho
    · next q hc =>
      rcases Code.step_cases ho with ⟨_, _, he, -⟩ | ⟨i, p, x, d, k', he, hc', hp, hx, hen, hk, hs⟩ |
        ⟨i, p, x, d, o, k', he, hc', hp, hx, hr, hk, hs⟩
      · cases he
      · cases he
        cases hc.symm.trans hc'
        left
        refine ⟨op, q, x, k', rfl, hc, hp, hx, ?_⟩
        cases op <;> cases hen
        · exact ⟨.inl rfl, hk, hs⟩
        · exact ⟨.inr (.inl ⟨rfl, rfl⟩), hk, hs⟩
        · exact ⟨.inr (.inr rfl), hk, hs⟩
      · cases he
        cases hc.symm.trans hc'
        right
        obtain ⟨hop, hr⟩ := run_some hr
        obtain rfl : op = .go := hop
        obtain ⟨rfl, rfl⟩ := Prod.mk.inj hr
        exact ⟨q, x, k', rfl, hc, hp, hx, hk, hs⟩
    · cases ho

theorem perform_cases {o : Out Phase} (ho : (code n a).perform c k o = .ok k') :
    k' = k ∨ ∃ r, r ≠ .exit ∧ Sched.step k (c, .call r) = .ok k' := by
  cases o with
  | stay => exact .inl (Except.ok.inj ho).symm
  | wakeup m => exact .inr ⟨.wakeup (.addr m), nofun, ho⟩
  | sleep m => exact .inr ⟨.sleep (.addr m) a, nofun, ho⟩
  | leave => exact .inr ⟨.release a, nofun, ho⟩

theorem kernel_step (ho : step n a s (c, e) = .ok s') : s'.k = s.k ∨
    ∃ x, Sched.step s.k (c, x) = .ok s'.k ∧ (x = .call .exit → e = .sys (.call .exit)) := by
  rcases step_cases ho with ⟨x, k', rfl, -, hk, rfl⟩ | ⟨op, p, x, k', rfl, -, -, -, -, hk, rfl⟩ |
    ⟨p, x, k', rfl, -, -, -, hk, rfl⟩
  · exact .inr ⟨x, hk, congrArg Event.sys⟩
  · exact .inr ⟨_, hk, nofun⟩
  · rcases perform_cases hk with hk | ⟨r, hr, hk⟩
    · exact .inl hk
    · exact .inr ⟨.call r, hk, fun he => absurd (Act.call.inj he) hr⟩

theorem mon_step (h : Mon (code n a) s) (ho : step n a s (c, e) = .ok s') :
    Mon (code n a) s' := by
  unfold step at ho
  split at ho
  · exact h.step ho
  · split at ho
    · exact h.step ho
    · cases ho

theorem lives_on (h : Mon (code n a) s) (ho : step n a s (c, e) = .ok s')
    (hp : Pc.serves (place s.k p) = true) (he : s.k.spc c = .away p → e ≠ .sys (.call .exit)) :
    Pc.serves (place s'.k p) = true ∧ s'.k.t.pid p = s.k.t.pid p := by
  rcases kernel_step ho with hk | ⟨x, hk, hexit⟩
  · rw [hk]
    exact ⟨hp, rfl⟩
  · have hp' := serves_step h hk hp fun hc hx => he hc (hexit hx)
    refine ⟨hp', pid_step h.inv hk (h.sleeps.lives p (Pc.serves.started hp)) ?_⟩
    exact (mon_step h ho).sleeps.lives p (Pc.serves.started hp')

theorem Inv.serving (h : Inv n a s) (hp : s.data.holds p = true ∨ s.phase p ≠ none) :
    Pc.serves (place s.k p) = true := by
  rcases hp with hp | hp
  · exact h.serves p hp
  · obtain ⟨x, hx⟩ := Option.ne_none_iff_exists'.1 hp
    exact Pc.within.serves (h.mon.within p x hx)

/-- A process that has the lock or is in its functions does not exit. -/
theorem Inv.stays (h : Inv n a s) (hl : legal s (c, e) = true) (ho : step n a s (c, e) = .ok s')
    (hp : s.data.holds p = true ∨ s.phase p ≠ none) (hc : s.k.spc c = .away p) :
    e ≠ .sys (.call .exit) := by
  rintro rfl
  rcases hp with hp | hp
  · simp [legal, hc, hp] at hl
  · obtain ⟨x, k', he, ha, hk, -⟩ | ⟨_, _, _, _, he, -⟩ | ⟨_, _, _, he, -⟩ := step_cases ho
    · cases he
      obtain ⟨t, hf, -⟩ := (tick_step h.mon.inv hk).flow p hc
      have hrun : s.k.pc p = .point .run := by
        generalize s.k.pc p = y at hf
        generalize place k' p = z at hf
        cases hf
        rfl
      simp [Code.admits, Code.outside, hc, hrun, hp] at ha
    · cases he
    · cases he

theorem Inv.lives (h : Inv n a s) (hl : legal s (c, e) = true) (ho : step n a s (c, e) = .ok s')
    (hp : s.data.holds p = true ∨ s.phase p ≠ none) :
    Pc.serves (place s'.k p) = true ∧ s'.k.t.pid p = s.k.t.pid p :=
  lives_on h.mon ho (h.serving hp) (h.stays hl ho hp)

theorem Inv.pids_step (h : Inv n a s) (hl : legal s (c, e) = true)
    (ho : step n a s (c, e) = .ok s') :
    Pids s'.k.t.state s'.k.t.pid s'.k.t.nextpid := by
  have hn : s.k.t.nextpid.toNat ≤ 2 ^ 31 := of_decide_eq_true (Bool.and_eq_true_iff.1 hl).1
  rcases kernel_step ho with hk | ⟨x, hk, -⟩
  · rw [hk]
    exact h.pids
  · exact Sleeplock.pids_step h.mon.inv h.pids hn hk

theorem Inv.pid_inj (h : Inv n a s) (hp : s.data.holds p = true) (hq : s.phase q = some x)
    (he : s.k.t.pid p = s.k.t.pid q) : p = q := by
  have hserves := Pc.within.serves (h.mon.within q x hq)
  apply h.pids.distinct p q _ _ he
  · exact used_of_alive (h.mon.sleeps.lives p (Pc.serves.started (h.serves p hp)))
  · exact used_of_alive (h.mon.sleeps.lives q (Pc.serves.started hserves))

theorem rest_update (h : Rest phase p) (x : Option Phase) : Rest (update phase p x) p := by
  intro q hq
  rw [update_of_ne hq]
  exact h q hq

theorem statement_holds (h : (statement n d p pid x).1.holds q = true) :
    d.holds q = true ∨ q = p := by
  by_cases hq : q = p
  · exact .inr hq
  · left
    cases x with
    | test =>
      rw [statement] at h
      split at h <;> exact h
    | acquired => simpa [statement, hq] using h
    | clear => simpa [statement, hq] using h
    | _ => exact h

theorem idle_of_rests (h : (code n a).rests x = true) : Idle (some x) :=
  .inr (congrArg some (of_decide_eq_true h))

theorem Inv.owned_step (h : Inv n a s) (hl : legal s (c, e) = true)
    (ho : step n a s (c, e) = .ok s') (hq : Rest s'.phase q) :
    Owned s'.data s'.k.t.pid q (s'.phase q) := by
  have hpid (p : Slot) (hp : s.data.holds p = true ∨ s.phase p ≠ none) :
      s'.k.t.pid p = s.k.t.pid p := (h.lives hl ho hp).2
  rcases step_cases ho with ⟨x, k', rfl, -, hk, rfl⟩ |
    ⟨op, p, x, k', rfl, hc, hp, hx, hop, hk, rfl⟩ | ⟨p, x, k', rfl, hc, hp, hx, hk, rfl⟩
  · apply (h.owned q hq).congr
    rintro r (hr | ⟨rfl, hr⟩)
    · exact hpid r (.inl hr)
    · exact hpid r (.inr (Option.isSome_iff_ne_none.1 hr))
  · have hfree := h.mon.enter_free hc hp hk
    have hrest : Rest s.phase p := by
      intro r hr
      cases hy : s.phase r with
      | none => exact .inl rfl
      | some y => exact idle_of_rests (h.mon.all_rest hfree hy)
    have howned := h.owned p hrest
    rw [hx] at howned
    have hself := (lives_on h.mon ho (by rw [place_eq hp nofun]; rfl) nofun).2
    refine Owned.all (p := p) ?_ (rest_update hrest _) hq
    dsimp only
    rw [update_self]
    apply (howned.enter (hop.imp_right (.imp_left And.left)) ?_).congr
    · rintro r (hr | ⟨rfl, -⟩)
      · exact hpid r (.inl hr)
      · exact hself
    · rintro rfl
      rcases hop with hop | ⟨-, rfl⟩ | hop
      · cases hop
      · simpa [legal, hc] using (Bool.and_eq_true_iff.1 hl).2
      · cases hop
  · have hrest : Rest s.phase p := by
      intro r hr
      cases hy : s.phase r with
      | none => exact .inl rfl
      | some y => exact idle_of_rests (h.mon.others_rest hc hp hx hr hy)
    have howned := h.owned p hrest
    rw [hx] at howned
    refine Owned.all (p := p) ?_ (rest_update hrest _) hq
    dsimp only
    rw [update_self]
    apply (howned.statement fun r hr he => h.pid_inj hr hx he).congr
    rintro r (hr | ⟨rfl, -⟩)
    · rcases statement_holds hr with hr | rfl
      · exact hpid r (.inl hr)
      · exact hpid r (.inr (by rw [hx]; nofun))
    · exact hpid r (.inr (by rw [hx]; nofun))

theorem Inv.serves_step (h : Inv n a s) (hl : legal s (c, e) = true)
    (ho : step n a s (c, e) = .ok s') (hp : s'.data.holds p = true) :
    Pc.serves (place s'.k p) = true := by
  rcases step_cases ho with ⟨x, k', rfl, -, hk, rfl⟩ |
    ⟨op, q, x, k', rfl, -, -, -, -, hk, rfl⟩ | ⟨q, x, k', rfl, -, -, hx, hk, rfl⟩
  · exact (h.lives hl ho (.inl hp)).1
  · exact (h.lives hl ho (.inl hp)).1
  · rcases statement_holds hp with hp | rfl
    · exact (h.lives hl ho (.inl hp)).1
    · exact (h.lives hl ho (.inr (by rw [hx]; nofun))).1

/-- `acquiresleep` calls `sleep` only while the lock is taken. -/
theorem statement_sleep (h : (statement n d p pid x).2 = .sleep m y) : d.locked = true := by
  cases x with
  | test =>
    rw [statement] at h
    split at h
    · next hl => exact hl
    · cases h
  | _ => cases h

theorem Inv.silent_step (h : Inv n a s) (ho : step n a s (c, e) = .ok s') (hs : Silent s n)
    (hl : s.data.locked = false) : Silent s' n := by
  have hn : n ∈ (code n a).chans := List.mem_singleton_self n
  have hsleep (i : Input) (b : Bool) (x y : Phase) (d : Lk) :
      (code n a).run s.data b x i ≠ some (d, .sleep n y) := by
    intro hr
    have hd := statement_sleep (congrArg Prod.snd (run_some hr).2.symm)
    cases hl.symm.trans hd
  unfold step at ho
  split at ho
  · exact h.mon.silent_step hn hs ho fun i p x y d _ _ _ => hsleep i _ x y d
  · split at ho
    · exact h.mon.silent_step hn hs ho fun i p x y d _ _ _ => hsleep i _ x y d
    · cases ho

theorem Inv.free_step (h : Inv n a s) (ho : step n a s (c, e) = .ok s')
    (hl : s'.data.locked = false) :
    Silent s' n ∨ ∃ p, s'.phase p = some .clearPid ∨ s'.phase p = some .woken := by
  rcases step_cases ho with ⟨x, k', rfl, -, hk, rfl⟩ |
    ⟨op, p, x, k', rfl, -, -, hx, -, hk, rfl⟩ | ⟨p, x, k', rfl, hc, hp, hx, hk, rfl⟩
  · exact (h.free hl).imp_left fun hs => h.silent_step ho hs hl
  · rcases h.free hl with hs | ⟨q, hq⟩
    · exact .inl (h.silent_step ho hs hl)
    · right
      refine ⟨q, ?_⟩
      dsimp only
      rw [update_of_ne]
      · exact hq
      · rintro rfl
        rw [hx] at hq
        rcases hq with hq | hq <;> cases hq
  · have hfree (ht : x ≠ .test) (hw : x ≠ .woken) (hcp : x ≠ .clearPid)
        (hs : s.data.locked = false) : Silent s n := by
      rcases h.free hs with hs | ⟨q, hq⟩
      · exact hs
      · have hqp : q = p := by
          by_contra hne
          rcases rest_holder h.mon hx ht q hne with hi | hi <;> rw [hi] at hq <;>
            rcases hq with hq | hq <;> cases hq
        rw [hqp, hx] at hq
        rcases hq with hq | hq
        · exact absurd (Option.some.inj hq) hcp
        · exact absurd (Option.some.inj hq) hw
    have howned (ht : x ≠ .test) : Owned s.data s.k.t.pid p (some x) :=
      hx ▸ h.owned p (rest_holder h.mon hx ht)
    cases x with
    | test =>
      dsimp only at hl
      rw [statement] at hl
      split at hl
      · next hd => cases hd.symm.trans hl
      · cases hl
    | owner =>
      cases howned nofun with
      | free _ _ hx => cases hx
      | taking hd => cases hd.symm.trans hl
      | held _ _ _ _ hx => cases hx
    | acquired =>
      cases howned nofun with
      | free _ _ hx => cases hx
      | taken hd => cases hd.symm.trans hl
      | held _ _ _ _ hx => cases hx
    | clear => exact .inr ⟨p, .inl (update_self ..)⟩
    | clearPid => exact .inr ⟨p, .inr (update_self ..)⟩
    | woken =>
      have hs := h.mon.silent_woken (List.mem_singleton_self n) hx rfl hp
      exact .inl (h.silent_step ho hs hl)
    | ask => exact .inl (h.silent_step ho (hfree nofun nofun nofun hl) hl)
    | answer r => exact .inl (h.silent_step ho (hfree nofun nofun nofun hl) hl)

theorem Inv.step (h : Inv n a s) (hl : legal s (c, e) = true) (ho : step n a s (c, e) = .ok s') :
    Inv n a s' where
  mon := mon_step h.mon ho
  pids := h.pids_step hl ho
  serves _ := h.serves_step hl ho
  owned _ := h.owned_step hl ho
  free := h.free_step ho

end Lock

/-- At most one process has the lock, `holdingsleep` answers true exactly to it, and while `lk->lk`
and the lock are free no process sleeps on it. -/
theorem sleeplock_excludes
    (h : Exec (step n a) (fun s e => legal s e) (Code.boot ticks .init) es s) :
    (∀ p q, s.data.holds p = true → s.data.holds q = true → p = q) ∧
    (∀ p r, s.phase p = some (.answer r) → (r = true ↔ s.data.holds p = true)) ∧
    (s.k.lock (.other a) = none → s.data.locked = false → ∀ p, ¬sleeping s.k (.addr n) p) := by
  have hi : Inv n a s := h.invariant (inv_boot n a ticks) fun _ _ _ hi hl ho => hi.step hl ho
  refine ⟨fun p q hp hq => ?_, fun p r hx => ?_, fun hl hd p hs => ?_⟩
  · obtain ⟨o, ho⟩ := exists_rest hi.mon
    exact (hi.owned o ho).unique hp hq
  · have howned := hi.owned p (rest_holder hi.mon hx nofun)
    rw [hx] at howned
    exact howned.answer
  · rcases hi.free hd with hn | ⟨q, hq | hq⟩
    · exact hn p (.inl hs)
    · cases of_decide_eq_true (hi.mon.all_rest hl hq)
    · cases of_decide_eq_true (hi.mon.all_rest hl hq)

def sys (c : Cpu) (l : List Act) : List (Cpu × Event Op) :=
  l.map fun a => (c, .sys a)

def lk (c : Cpu) (l : List Op) : List (Cpu × Event Op) :=
  l.map fun op => (c, .code op)

/-- Init takes the lock, its child sleeps on it on CPU 1, and init asks `holdingsleep`. -/
def contendedRun : List (Cpu × Event Op) :=
  sys 0 (List.replicate 7 .go ++ [.call .fork, .go, .go, .go, .memory true, .go, .go, .go]) ++
  sys 1 (List.replicate 7 .go) ++ lk 0 [.acquiresleep, .go, .go, .go] ++
  lk 1 [.acquiresleep, .go] ++ sys 1 (List.replicate 9 .go) ++ lk 0 [.holdingsleep, .go]

theorem sleeplock_excludes_contendedRun : ∃ s,
    Exec (step 8 0) (fun s e => legal s e) (Code.boot 0 .init) contendedRun s ∧
      s.phase 0 = some (.answer true) ∧ s.data.holds 0 = true ∧
      (∀ q, s.data.holds q = true → q = 0) ∧ sleeping s.k (.addr 8) 1 := by
  obtain ⟨s, hr, hs⟩ := (Option.any_eq_true _ _).1
    (show (runLegal (step 8 0) legal (Code.boot 0 .init) contendedRun).any
      (fun s => s.phase 0 = some (.answer true) ∧ s.data.holds 0 = true ∧
        s.k.t.state 1 = .sleeping ∧ s.k.t.chan 1 = some (.addr 8)) = true by decide +kernel)
  obtain ⟨hx, hh, hsleep⟩ := of_decide_eq_true hs
  have hexec := exec_of_runLegal (step 8 0) legal (Code.boot 0 .init) contendedRun hr
  have hunique := (sleeplock_excludes hexec).1
  exact ⟨s, hexec, hx, hh, fun q hq => hunique q 0 hq hh, hsleep⟩

end Xv6.Sched.Sleeplock
