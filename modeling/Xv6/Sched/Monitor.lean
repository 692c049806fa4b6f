import Xv6.Sched.Sleep

namespace Xv6.Sched
open Lib Proc Function
set_option autoImplicit true

/-- What code under a spinlock does next: go on, call `wakeup` or `sleep`, or return `r`. -/
inductive Out (φ : Type) where
  | stay (x : φ)
  | wakeup (n : Nat) (x : φ)
  | sleep (n : Nat) (x : φ)
  | leave (r : Int)

def Out.next : Out φ → Option φ
  | .stay x => some x
  | .wakeup _ x => some x
  | .sleep _ x => some x
  | .leave _ => none

/-- Kernel code whose data `δ` is under a spinlock: what a process does first, and in phase `x`,
given whether it is killed. In a phase that `rests` it may be in `sleep`; in one that `woke`, it has
just called `wakeup`. -/
structure Code (δ φ ι : Type) where
  lock : Nat
  chans : List Nat
  enter : δ → ι → Option (δ × φ)
  run : δ → Bool → φ → ι → Option (δ × Out φ)
  rests : φ → Bool
  woke : φ → Option Nat
  enter_woke : enter d i = some (d', x) → woke x = none
  run_rests : run d b x i = some (d', .sleep n x') → rests x' = true
  run_woke : run d b x i = some (d', o) → o.next = some x' → woke x' = some n → o = .wakeup n x'

/-- The kernel with the data of the code and the phase of each process. -/
structure Mst (δ φ : Type) where
  k : St
  data : δ
  phase : Slot → Option φ

inductive Event (ι : Type) where
  | sys (a : Act)
  | code (i : ι)

variable {δ φ ι : Type}

namespace Code
variable (C : Code δ φ ι)

/-- Other code uses neither the lock nor the channels. -/
def foreign : Req → Bool
  | .acquire b => b ≠ C.lock
  | .release b => b ≠ C.lock
  | .sleep (.addr n) b => b ≠ C.lock ∧ n ∉ C.chans
  | .sleep (.proc _) b => b ≠ C.lock
  | _ => true

def perform (c : Cpu) (k : St) : Out φ → Except Fault St
  | .stay _ => .ok k
  | .wakeup n _ => step k (c, .call (.wakeup (.addr n)))
  | .sleep n _ => step k (c, .call (.sleep (.addr n) C.lock))
  | .leave _ => step k (c, .call (.release C.lock))

/-- Other code, or an interrupt, may issue the requests of CPU `c`. -/
def outside (s : Mst δ φ) (c : Cpu) : Bool :=
  match s.k.spc c with
  | .away p => s.k.pc p ≠ .point .run ∨ s.phase p = none
  | _ => true

def admits (s : Mst δ φ) (c : Cpu) : Act → Bool
  | .call r => C.foreign r && outside s c
  | _ => true

/-- Process `p` on CPU `c` executes the code. -/
def stepCode (s : Mst δ φ) (c : Cpu) (p : Slot) (i : ι) : Except Fault (Mst δ φ) :=
  match s.phase p with
  | none =>
    match C.enter s.data i with
    | none => .error .blocked
    | some (d, x) => do
      let k ← step s.k (c, .call (.acquire C.lock))
      .ok { k := k, data := d, phase := update s.phase p (some x) }
  | some x =>
    match C.run s.data (s.k.t.killed p) x i with
    | none => .error .blocked
    | some (d, o) => do
      let k ← C.perform c s.k o
      .ok { k := k, data := d, phase := update s.phase p o.next }

def step (s : Mst δ φ) (e : Cpu × Event ι) : Except Fault (Mst δ φ) :=
  match e.2 with
  | .sys a =>
    if C.admits s e.1 a then do
      let k ← Sched.step s.k (e.1, a)
      .ok { s with k := k }
    else .error .blocked
  | .code i =>
    match s.k.spc e.1 with
    | .away p => if s.k.pc p = .point .run then C.stepCode s e.1 p i else .error .blocked
    | _ => .error .blocked

def boot (ticks : UInt32) (data : δ) : Mst δ φ where
  k := Sched.boot ticks
  data := data
  phase _ := none

end Code

/-- A process of the code at this place has lock `a`. -/
def Pc.keeps (a : Nat) : Pc → Bool
  | .point .run => true
  | .wake _ _ .run => true
  | .sleepLock _ b => b = a
  | .sleepUnlock _ b => b = a
  | _ => false

/-- The point to which a process comes back by itself. -/
def Pc.base : Pc → Point
  | .point x => x
  | .unlock x => x
  | .yieldLock x => x
  | .yieldState x => x
  | .wake _ _ x => x
  | .sched (.yield x) => x
  | .resume (.yield x) => x
  | .sleepLock _ b => .reacquire b
  | .sleepUnlock _ b => .reacquire b
  | .sleepChan _ (.other b) => .reacquire b
  | .sleepState _ (.other b) => .reacquire b
  | .sched (.sleep (.other b)) => .reacquire b
  | .resume (.sleep (.other b)) => .reacquire b
  | _ => .run

/-- A process in the code has its lock, or will take it again in `sleep`. -/
def Pc.within (a : Nat) (x : Pc) : Prop :=
  x.keeps a = true ∨ x.base = .reacquire a

theorem Flow.within (hf : Flow e x t y) (hx : x.within a) (hr : ∀ r, e = .call r → x ≠ .point .run) :
    y.within a ∧ (y.base = .reacquire a → x.base = .reacquire a) ∧
      (t = .keep ∧ y.keeps a = x.keeps a ∨
       t = .take a ∧ x.keeps a = false ∧ y.keeps a = true ∨
       t = .give a ∧ x.keeps a = true ∧ y.keeps a = false) := by
  unfold Pc.within at hx ⊢
  cases hf with
  | @wakeup ch x => cases x <;> grind [Pc.keeps, Pc.base]
  | @sleepChan ch l => cases l <;> grind [Pc.keeps, Pc.base]
  | @sleepState ch l => cases l <;> grind [Pc.keeps, Pc.base]
  | @sched k =>
    cases k with
    | sleep l => cases l <;> grind [Pc.keeps, Pc.base]
    | _ => grind [Pc.keeps, Pc.base]
  | @wakeLock ch x => cases x <;> grind [Pc.keeps, Pc.base]
  | @wakeScan j ch x => cases x <;> grind [Pc.keeps, Pc.base]
  | @wakeEnd j ch x => cases x <;> grind [Pc.keeps, Pc.base]
  | @wakeUnlock ch x => cases x <;> grind [Pc.keeps, Pc.base]
  | _ => grind [Pc.keeps, Pc.base]

theorem Pc.within.started {x : Pc} (h : x.within a) : x.started = true := by
  unfold Pc.started
  split <;> first | rfl | (rcases h with h | h <;> cases h)

theorem Flow.outside (hf : Flow e x t y) (hx : x.base ≠ .reacquire a)
    (hacquire : e ≠ .call (.acquire a)) (hrelease : e ≠ .call (.release a))
    (hsleep : ∀ ch, e ≠ .call (.sleep ch a)) :
    y.base ≠ .reacquire a ∧ t ≠ .take a ∧ t ≠ .give a := by
  cases hf with
  | @sleepChan ch l => cases l <;> grind [Pc.base]
  | @sleepState ch l => cases l <;> grind [Pc.base]
  | @sched k =>
    cases k with
    | sleep l => cases l <;> grind [Pc.base]
    | _ => grind [Pc.base]
  | _ => grind [Pc.base]

/-- CPU `c` executes a process that is in the code and has lock `a`. -/
def inside (a : Nat) (phase : Slot → Option φ) (k : St) (c : Cpu) : Bool :=
  match k.spc c with
  | .away p => (phase p).isSome && (k.pc p).keeps a
  | _ => false

theorem inside_away (hc : k.spc c = .away p) (phase : Slot → Option φ) :
    inside a phase k c = ((phase p).isSome && (k.pc p).keeps a) := by
  unfold inside
  rw [hc]

section Kernel
variable {k k' : St} {c : Cpu} {e : Act} {t : Turn} {phase phase' : Slot → Option φ}

theorem inside_other (h : Inv k) (ht : Tick c e k k') (hd : d ≠ c)
    (hph : ∀ q, k.spc d = .away q → (phase' q).isSome = (phase q).isSome) :
    inside a phase' k' d = inside a phase k d := by
  unfold inside
  rw [ht.spc d hd]
  cases hx : k.spc d with
  | away q => simp only [ht.pc_executing h hx hd, hph q hx]
  | _ => rfl

theorem inside_self (ht : Tick c e k k') (hc : k.spc c = .away p) :
    inside a phase' k' c = ((phase' p).isSome && (place k' p).keeps a) := by
  rcases ht.stays p hc with ⟨hc', hp⟩ | ⟨hc', hp⟩
  · rw [inside_away hc', place_eq rfl hp]
  · rw [place_off hp]
    unfold inside
    rw [hc']
    simp [Pc.keeps]

theorem inside_idle (ht : Tick c e k k') (hc : ∀ p, k.spc c ≠ .away p) :
    inside a phase' k' c = false := by
  unfold inside
  split
  · next q hq =>
    rcases ht.other q (hc q) with ⟨-, hne, -⟩ | ⟨-, -, hp⟩
    · exact absurd hq hne
    · rw [hp]
      simp [Pc.keeps]
  · rfl

theorem lock_step (h : Inv k) (hlock : Tracks (k.lock (.other a)) id (inside a phase k))
    (ht : Tick c e k k') (hc : k.spc c = .away p)
    (hph : ∀ q, q ≠ p → (phase' q).isSome = (phase q).isSome)
    (hl : t.Applies c k.lock k'.lock)
    (hturn : t ≠ .take a ∧ t ≠ .give a ∧
        ((phase' p).isSome && (place k' p).keeps a) = ((phase p).isSome && (k.pc p).keeps a) ∨
      t = .take a ∧ ((phase' p).isSome && (place k' p).keeps a) = true ∨
      t = .give a ∧ ((phase p).isSome && (k.pc p).keeps a) = true ∧
        ((phase' p).isSome && (place k' p).keeps a) = false) :
    Tracks (k'.lock (.other a)) id (inside a phase' k') := by
  rw [← inside_away hc, ← inside_self ht hc] at hturn
  have hinside : inside a phase' k' = update (inside a phase k) c (inside a phase' k' c) := by
    funext d
    by_cases hd : d = c
    · rw [hd, update_self]
    · rw [update_of_ne hd]
      refine inside_other h ht hd fun q hq => hph q ?_
      rintro rfl
      exact hd (h.away_unique hq hc)
  rw [hinside]
  rcases hturn with ⟨htake, hgive, heq⟩ | ⟨rfl, hin⟩ | ⟨rfl, hin, hout⟩
  · have hk : k'.lock (.other a) = k.lock (.other a) := by
      cases t with
      | keep => exact hl a
      | take b =>
        rw [hl.2 a, if_neg]
        rintro rfl
        exact htake rfl
      | give b =>
        rw [hl.2 a, if_neg]
        rintro rfl
        exact hgive rfl
    rw [hk]
    exact hlock.keep rfl heq
  · have hk : k'.lock (.other a) = some c := by
      rw [hl.2 a, if_pos rfl]
    rw [hk]
    rw [hl.1] at hlock
    exact hlock.take hin
  · have hk : k'.lock (.other a) = none := by
      rw [hl.2 a, if_pos rfl]
    rw [hk]
    exact hlock.drop rfl hin hout

theorem lock_idle (h : Inv k) (hlock : Tracks (k.lock (.other a)) id (inside a phase k))
    (ht : Tick c e k k') (hc : ∀ p, k.spc c ≠ .away p) :
    Tracks (k'.lock (.other a)) id (inside a phase k') := by
  rw [ht.lock hc]
  refine hlock.congr fun d => ?_
  by_cases hd : d = c
  · subst hd
    have hidle : inside a phase k d = false := by
      unfold inside
      split
      · next q hq => exact absurd hq (hc q)
      · rfl
    rw [id, id, inside_idle ht hc, hidle]
  · exact inside_other h ht hd fun _ _ => rfl

end Kernel

/-- Exactly the processes in the code have its lock or wait for it in `sleep`, only they sleep on
its channels, and not on one just woken. -/
structure Mon (C : Code δ φ ι) (s : Mst δ φ) : Prop where
  inv : Inv s.k
  sleeps : Sleeps s.k
  lock : Tracks (s.k.lock (.other C.lock)) id (inside C.lock s.phase s.k)
  within : ∀ p x, s.phase p = some x → (place s.k p).within C.lock
  rests : ∀ p x, s.phase p = some x → (place s.k p).base = .reacquire C.lock → C.rests x = true
  foreign : ∀ p, s.phase p = none → (place s.k p).base ≠ .reacquire C.lock
  channel : ∀ n, n ∈ C.chans → ∀ p, pending s.k (.addr n) p → (s.phase p).isSome = true
  woken : ∀ p x n, s.phase p = some x → C.woke x = some n → n ∈ C.chans →
    (∃ w, s.k.pc p = .wake (.addr n) w .run ∧ w ≠ .unlock) ∨
      (s.k.pc p = .wake (.addr n) .unlock .run ∨ s.k.pc p = .point .run) ∧
        ∀ q, ¬pending s.k (.addr n) q

theorem mon_boot (C : Code δ φ ι) (ticks : UInt32) (data : δ) : Mon C (Code.boot ticks data) := by
  constructor
  · exact inv_boot ticks
  · exact sleeps_boot ticks
  · intro c
    constructor <;> exact nofun
  · exact nofun
  · exact nofun
  · exact fun p _ => by rw [place_off rfl]; nofun
  · rintro n - p (⟨-, hc⟩ | hs)
    · cases hc
    · cases hs
  · exact nofun

theorem Flow.ne_off (hf : Flow e x t y) : x ≠ .off := by
  rintro rfl
  cases hf

theorem Tick.pc_self (ht : Tick c a s s') (hc : s.spc c = .away p)
    (hp : ∀ k, s.pc p ≠ .sched k) : s'.pc p = place s' p := by
  rcases ht.stays p hc with ⟨-, hoff⟩ | ⟨-, hoff⟩
  · rw [place_eq rfl hoff]
  · obtain ⟨t, hf, -⟩ := ht.flow p hc
    rw [place_off hoff] at hf
    generalize hx : s.pc p = x at hf
    cases hf
    exact absurd hx (hp _)

section Mon
variable {C : Code δ φ ι} {s s' : Mst δ φ} {c : Cpu} {a : Act} {k' : St}

theorem Mon.place_other (h : Mon C s) (ht : Tick c a s.k k') (hq : s.k.spc c ≠ .away q)
    (hx : s.phase q = some x) : place k' q = place s.k q := by
  rcases h.sleeps.place_other h.inv ht hq with he | ⟨hu, -⟩
  · exact he
  · have hl := h.sleeps.lives q (h.within q x hx).started
    rw [hu] at hl
    cases hl

theorem Mon.base_other (h : Mon C s) (ht : Tick c a s.k k') (hq : s.k.spc c ≠ .away q)
    (hx : s.phase q = none) : (place k' q).base ≠ .reacquire C.lock := by
  rcases h.sleeps.place_other h.inv ht hq with he | ⟨-, he⟩
  · rw [he]
    exact h.foreign q hx
  · rw [he]
    nofun

theorem Mon.sleeper_lock (h : Mon C s) (hn : n ∈ C.chans)
    (hp : s.k.pc p = .sleepLock (.addr n) b ∨ s.k.pc p = .sleepUnlock (.addr n) b)
    (hd : s.k.spc d = .away p) : s.k.lock (.other C.lock) = some d := by
  have hpend : pending s.k (.addr n) p := by
    rcases hp with hp | hp
    · exact .inr (by rw [hp]; exact decide_eq_true rfl)
    · exact .inr (by rw [hp]; exact decide_eq_true rfl)
  have hsome := h.channel n hn p hpend
  obtain ⟨x, hx⟩ := Option.isSome_iff_exists.1 hsome
  apply (h.lock d).2
  have hw := h.within p x hx
  rw [id, inside_away hd, hsome, Bool.true_and]
  rcases hp with hp | hp
  · rw [place_eq hp nofun] at hw
    rw [hp]
    rcases hw with hw | hw
    · exact hw
    · exact decide_eq_true (Point.reacquire.inj hw)
  · rw [place_eq hp nofun] at hw
    rw [hp]
    rcases hw with hw | hw
    · exact hw
    · exact decide_eq_true (Point.reacquire.inj hw)

theorem Mon.pending_sys (h : Mon C s) (ha : C.admits s c a = true) (ht : Tick c a s.k k')
    (hn : n ∈ C.chans) (hp : pending k' (.addr n) q) : pending s.k (.addr n) q := by
  rcases h.sleeps.pending_step ht hp with hp' | ⟨-, -, b, rfl⟩
  · exact hp'
  · simp [Code.admits, Code.foreign, hn] at ha

theorem Mon.sys_lock (h : Mon C s) (ha : C.admits s c a = true) (ht : Tick c a s.k k')
    (hc : s.k.spc c = .away p) (hf : Flow a (s.k.pc p) t (place k' p)) :
    (s.phase p = none → (place k' p).base ≠ .reacquire C.lock ∧ t ≠ .take C.lock ∧
      t ≠ .give C.lock) ∧
    ∀ x, s.phase p = some x → (place k' p).within C.lock ∧
      ((place k' p).base = .reacquire C.lock → (place s.k p).base = .reacquire C.lock) ∧
      (t = .keep ∧ (place k' p).keeps C.lock = (s.k.pc p).keeps C.lock ∨
       t = .take C.lock ∧ (s.k.pc p).keeps C.lock = false ∧ (place k' p).keeps C.lock = true ∨
       t = .give C.lock ∧ (s.k.pc p).keeps C.lock = true ∧ (place k' p).keeps C.lock = false) := by
  have hpl := place_eq (s := s.k) (p := p) rfl hf.ne_off
  refine ⟨fun hx => ?_, fun x hx => ?_⟩
  · have hb := h.foreign p hx
    rw [hpl] at hb
    refine hf.outside hb ?_ ?_ ?_
    · rintro rfl
      simp [Code.admits, Code.foreign] at ha
    · rintro rfl
      simp [Code.admits, Code.foreign] at ha
    · rintro (q | n) rfl <;> simp [Code.admits, Code.foreign] at ha
  · have hw := h.within p x hx
    rw [hpl] at hw ⊢
    refine hf.within hw ?_
    rintro r rfl hp
    simp [Code.admits, Code.outside, hc, hp, hx] at ha

theorem Mon.woken_sys (h : Mon C s) (ha : C.admits s c a = true) (ht : Tick c a s.k k')
    (hx : s.phase p = some x) (hw : C.woke x = some n) (hn : n ∈ C.chans) :
    (∃ w, k'.pc p = .wake (.addr n) w .run ∧ w ≠ .unlock) ∨
      (k'.pc p = .wake (.addr n) .unlock .run ∨ k'.pc p = .point .run) ∧
        ∀ q, ¬pending k' (.addr n) q := by
  have hpc := h.woken p x n hx hw hn
  have hoff : s.k.pc p ≠ .off := by
    rcases hpc with ⟨w, hp, -⟩ | ⟨hp | hp, -⟩ <;> rw [hp] <;> nofun
  obtain ⟨d, hd⟩ := h.sleeps.on p hoff
  by_cases hdc : d = c
  · subst hdc
    obtain ⟨t, hf, -⟩ := ht.flow p hd
    rcases hpc with ⟨w, hp, hu⟩ | ⟨hp | hp, hq⟩
    · have hself := ht.pc_self hd (by rw [hp]; nofun)
      rw [hp, ← hself] at hf
      generalize hy : k'.pc p = y at hf
      cases hf with
      | wakeLock => exact .inl ⟨_, rfl, nofun⟩
      | wakeScan hj => exact .inl ⟨_, rfl, nofun⟩
      | wakeEnd hj =>
        refine .inr ⟨.inl rfl, fun q hq => ?_⟩
        refine h.sleeps.swept_none h.inv hd hp hj (fun r b hr => ?_) q (h.pending_sys ha ht hn hq)
        obtain ⟨e, he⟩ := h.sleeps.on r (by rcases hr with hr | hr <;> rw [hr] <;> nofun)
        have hlock : s.k.lock (.other C.lock) = some d := by
          apply (h.lock d).2
          rw [id, inside_away hd, hx, hp]
          rfl
        cases hlock.symm.trans (h.sleeper_lock hn hr he)
        exact he
      | wakeUnlock => exact absurd rfl hu
    · have hself := ht.pc_self hd (by rw [hp]; nofun)
      rw [hp, ← hself] at hf
      generalize hy : k'.pc p = y at hf
      cases hf
      exact .inr ⟨.inr rfl, fun q hq' => hq q (h.pending_sys ha ht hn hq')⟩
    · rw [hp] at hf
      cases a with
      | call r => simp [Code.admits, Code.outside, hd, hp, hx] at ha
      | go =>
        generalize place k' p = y at hf
        cases hf
      | memory b =>
        generalize place k' p = y at hf
        cases hf
  · rw [ht.pc_executing h.inv hd hdc]
    exact hpc.imp_right fun ⟨hp, hq⟩ =>
      ⟨hp, fun q hq' => hq q (h.pending_sys ha ht hn hq')⟩

theorem Mon.sys (h : Mon C s) (ha : C.admits s c a = true)
    (ho : Sched.step s.k (c, a) = .ok k') : Mon C { s with k := k' } := by
  have ht := tick_step h.inv ho
  constructor
  · exact h.inv.step ho
  · exact h.sleeps.step h.inv ht
  · by_cases hc : ∃ p, s.k.spc c = .away p
    · obtain ⟨p, hc⟩ := hc
      obtain ⟨t, hf, hl⟩ := ht.flow p hc
      obtain ⟨hnone, hsome⟩ := h.sys_lock ha ht hc hf
      refine lock_step h.inv h.lock ht hc (fun _ _ => rfl) hl ?_
      cases hx : s.phase p with
      | none =>
        obtain ⟨-, htake, hgive⟩ := hnone hx
        exact .inl ⟨htake, hgive, rfl⟩
      | some x =>
        obtain ⟨-, -, htu⟩ := hsome x hx
        rcases htu with ⟨rfl, he⟩ | ⟨rfl, he, he'⟩ | ⟨rfl, he, he'⟩
        · exact .inl ⟨nofun, nofun, he⟩
        · exact .inr (.inl ⟨rfl, he'⟩)
        · exact .inr (.inr ⟨rfl, he, he'⟩)
    · exact lock_idle h.inv h.lock ht fun p hp => hc ⟨p, hp⟩
  · intro q x hx
    by_cases hc : s.k.spc c = .away q
    · obtain ⟨t, hf, -⟩ := ht.flow q hc
      exact ((h.sys_lock ha ht hc hf).2 x hx).1
    · have hpl := h.place_other ht hc hx
      exact hpl ▸ h.within q x hx
  · intro q x hx hb
    by_cases hc : s.k.spc c = .away q
    · obtain ⟨t, hf, -⟩ := ht.flow q hc
      exact h.rests q x hx (((h.sys_lock ha ht hc hf).2 x hx).2.1 hb)
    · rw [h.place_other ht hc hx] at hb
      exact h.rests q x hx hb
  · intro q hx
    by_cases hc : s.k.spc c = .away q
    · obtain ⟨t, hf, -⟩ := ht.flow q hc
      exact ((h.sys_lock ha ht hc hf).1 hx).1
    · exact h.base_other ht hc hx
  · exact fun n hn q hp => h.channel n hn q (h.pending_sys ha ht hn hp)
  · exact fun p x n hx hw hn => h.woken_sys ha ht hx hw hn

theorem Mon.alone (h : Mon C s) (hc : s.k.spc c = .away p)
    (hl : ∀ d, s.k.lock (.other C.lock) = some d → d = c) (hq : q ≠ p)
    (hx : s.phase q = some x) (hn : n ∈ C.chans) : C.woke x ≠ some n := by
  intro hw
  have hpc := h.woken q x n hx hw hn
  have hoff : s.k.pc q ≠ .off := by
    rcases hpc with ⟨w, hp, -⟩ | ⟨hp | hp, -⟩ <;> rw [hp] <;> nofun
  obtain ⟨d, hd⟩ := h.sleeps.on q hoff
  have hkeeps : (s.k.pc q).keeps C.lock = true := by
    rcases hpc with ⟨w, hp, -⟩ | ⟨hp | hp, -⟩ <;> rw [hp] <;> rfl
  have hin : inside C.lock s.phase s.k d = true := by
    rw [inside_away hd, hx, hkeeps]
    rfl
  cases hl d ((h.lock d).2 hin)
  cases hc.symm.trans hd
  exact hq rfl

theorem Mon.call (h : Mon C s) (hc : s.k.spc c = .away p)
    (ho : Sched.step s.k (c, .call r) = .ok s'.k)
    (hph : s'.phase = update s.phase p o)
    (hl : ∀ d, s.k.lock (.other C.lock) = some d → d = c)
    (hlock : Tracks (s'.k.lock (.other C.lock)) id (inside C.lock s'.phase s'.k))
    (hin : ∀ x, o = some x → (place s'.k p).within C.lock ∧
      ((place s'.k p).base = .reacquire C.lock → C.rests x = true))
    (hout : o = none → (place s'.k p).base ≠ .reacquire C.lock ∧ ∀ n, ¬pending s'.k (.addr n) p)
    (hwoke : ∀ x n, o = some x → C.woke x = some n →
      ∃ w', s'.k.pc p = .wake (.addr n) w' .run ∧ w' ≠ .unlock) : Mon C s' := by
  have ht := tick_step h.inv ho
  have hne (q : Slot) (hq : q ≠ p) : s.k.spc c ≠ .away q := by
    intro hc'
    cases hc.symm.trans hc'
    exact hq rfl
  have hself : s'.phase p = o := by
    rw [hph, update_self]
  have hother (q : Slot) (hq : q ≠ p) : s'.phase q = s.phase q := by
    rw [hph, update_of_ne hq]
  constructor
  · exact h.inv.step ho
  · exact h.sleeps.step h.inv ht
  · exact hlock
  · intro q x hx
    by_cases hq : q = p
    · rw [hq] at hx ⊢
      exact (hin x (hself.symm.trans hx)).1
    · rw [hother q hq] at hx
      rw [h.place_other ht (hne q hq) hx]
      exact h.within q x hx
  · intro q x hx hb
    by_cases hq : q = p
    · rw [hq] at hx hb
      exact (hin x (hself.symm.trans hx)).2 hb
    · rw [hother q hq] at hx
      rw [h.place_other ht (hne q hq) hx] at hb
      exact h.rests q x hx hb
  · intro q hx
    by_cases hq : q = p
    · rw [hq] at hx ⊢
      exact (hout (hself.symm.trans hx)).1
    · rw [hother q hq] at hx
      exact h.base_other ht (hne q hq) hx
  · intro n hn q hpend
    by_cases hq : q = p
    · rw [hq] at hpend ⊢
      rw [hself, Option.isSome_iff_ne_none]
      exact fun hx => (hout hx).2 n hpend
    · rw [hother q hq]
      rcases h.sleeps.pending_step ht hpend with hp' | ⟨hc', -⟩
      · exact h.channel n hn q hp'
      · exact absurd hc' (hne q hq)
  · intro q x n hx hw hn
    by_cases hq : q = p
    · rw [hq] at hx ⊢
      exact .inl (hwoke x n (hself.symm.trans hx) hw)
    · rw [hother q hq] at hx
      exact absurd hw (h.alone hc hl hq hx hn)

theorem Mon.enter (h : Mon C s) (hc : s.k.spc c = .away p) (hp : s.k.pc p = .point .run)
    (ho : Sched.step s.k (c, .call (.acquire C.lock)) = .ok s'.k)
    (hph : s'.phase = update s.phase p (some x)) (hw : C.woke x = none) : Mon C s' := by
  have ht := tick_step h.inv ho
  obtain ⟨t, hf, hl⟩ := ht.flow p hc
  rw [hp] at hf
  generalize hy : place s'.k p = y at hf
  cases hf
  refine h.call hc ho hph ?_ ?_ ?_ nofun ?_
  · intro d hd
    cases hl.1.symm.trans hd
  · refine lock_step h.inv h.lock ht hc (fun q hq => ?_) hl (.inr (.inl ⟨rfl, ?_⟩))
    · rw [hph, update_of_ne hq]
    · rw [hph, update_self, hy]
      rfl
  · intro _ _
    rw [hy]
    exact ⟨.inl rfl, nofun⟩
  · intro x' n hx' hw'
    cases hx'
    cases hw.symm.trans hw'

theorem Mon.has_lock (h : Mon C s) (hc : s.k.spc c = .away p) (hp : s.k.pc p = .point .run)
    (hx : s.phase p = some x) : s.k.lock (.other C.lock) = some c := by
  apply (h.lock c).2
  rw [id, inside_away hc, hx, hp]
  rfl

theorem Mon.stay (h : Mon C s) (hp : s.k.pc p = .point .run) (hx : s.phase p = some x)
    (hk : s'.k = s.k) (hph : s'.phase = update s.phase p (some x'))
    (hw : C.woke x' = none) : Mon C s' := by
  have hsome (q : Slot) : (s'.phase q).isSome = (s.phase q).isSome := by
    rw [hph]
    exact proj_update Option.isSome s.phase (by rw [hx]; rfl) q
  constructor
  · rw [hk]
    exact h.inv
  · rw [hk]
    exact h.sleeps
  · rw [hk]
    refine h.lock.congr fun d => ?_
    unfold inside
    cases hd : s.k.spc d with
    | away q => simp only [hsome]
    | _ => rfl
  · intro q y hy
    rw [hk]
    have hq := hsome q
    rw [hy] at hq
    obtain ⟨z, hz⟩ := Option.isSome_iff_exists.1 hq.symm
    exact h.within q z hz
  · intro q y hy hb
    rw [hk] at hb
    rw [hph] at hy
    by_cases hq : q = p
    · rw [hq, place_eq hp nofun] at hb
      cases hb
    · rw [update_of_ne hq] at hy
      exact h.rests q y hy hb
  · intro q hq
    rw [hk]
    have hn := hsome q
    rw [hq] at hn
    exact h.foreign q (Option.isNone_iff_eq_none.1 (by rw [← Option.not_isSome, ← hn]; rfl))
  · intro n hn q hpend
    rw [hk] at hpend
    rw [hsome]
    exact h.channel n hn q hpend
  · intro q y n hy hw' hn
    rw [hph] at hy
    rw [hk]
    by_cases hq : q = p
    · rw [hq, update_self] at hy
      cases hy
      cases hw.symm.trans hw'
    · rw [update_of_ne hq] at hy
      exact h.woken q y n hy hw' hn

theorem Mon.perform (h : Mon C s) (hc : s.k.spc c = .away p) (hp : s.k.pc p = .point .run)
    (hx : s.phase p = some x) (hr : C.run s.data b x i = some (d, o))
    (ho : C.perform c s.k o = .ok s'.k) (hph : s'.phase = update s.phase p o.next) :
    Mon C s' := by
  have hlock := h.has_lock hc hp hx
  have hown (d : Cpu) (hd : s.k.lock (.other C.lock) = some d) : d = c :=
    Option.some.inj (hd.symm.trans hlock)
  have hother (q : Slot) (hq : q ≠ p) : (s'.phase q).isSome = (s.phase q).isSome := by
    rw [hph, update_of_ne hq]
  have hself : s'.phase p = o.next := by
    rw [hph, update_self]
  have hwoke (x' : φ) (n : Nat) (hx' : o.next = some x') (hw : C.woke x' = some n) :=
    C.run_woke hr hx' hw
  cases o with
  | stay x' =>
    refine h.stay hp hx (Except.ok.inj ho).symm hph ?_
    cases hw : C.woke x' with
    | none => rfl
    | some n => cases hwoke x' n rfl hw
  | wakeup n x' =>
    have ht := tick_step h.inv ho
    obtain ⟨t, hf, hl⟩ := ht.flow p hc
    rw [hp] at hf
    generalize hy : place s'.k p = y at hf
    cases hf
    refine h.call hc ho hph hown ?_ ?_ nofun ?_
    · refine lock_step h.inv h.lock ht hc hother hl (.inl ⟨nofun, nofun, ?_⟩)
      rw [hself, hy, hx, hp]
      rfl
    · intro _ _
      rw [hy]
      exact ⟨.inl rfl, nofun⟩
    · intro y' m hy' hm
      cases hwoke y' m hy' hm
      refine ⟨.lock, ?_, nofun⟩
      rw [ht.pc_self hc (by rw [hp]; nofun), hy]
  | sleep n x' =>
    have ht := tick_step h.inv ho
    obtain ⟨t, hf, hl⟩ := ht.flow p hc
    rw [hp] at hf
    generalize hy : place s'.k p = y at hf
    cases hf
    refine h.call hc ho hph hown ?_ ?_ nofun ?_
    · refine lock_step h.inv h.lock ht hc hother hl (.inl ⟨nofun, nofun, ?_⟩)
      rw [hself, hy, hx, hp]
      simp [Out.next, Pc.keeps]
    · intro y' hy'
      cases hy'
      rw [hy]
      exact ⟨.inl (decide_eq_true rfl), fun _ => C.run_rests hr⟩
    · intro y' m hy' hm
      cases hwoke y' m hy' hm
  | leave r =>
    have ht := tick_step h.inv ho
    obtain ⟨t, hf, hl⟩ := ht.flow p hc
    rw [hp] at hf
    generalize hy : place s'.k p = y at hf
    cases hf
    have hp' : s'.k.pc p = .point .run := by
      rw [ht.pc_self hc (by rw [hp]; nofun), hy]
    refine h.call hc ho hph hown ?_ nofun (fun _ => ⟨?_, fun n => ?_⟩) nofun
    · refine lock_step h.inv h.lock ht hc hother hl (.inr (.inr ⟨rfl, ?_, ?_⟩))
      · rw [hx, hp]
        rfl
      · rw [hself]
        rfl
    · rw [hy]
      nofun
    · rintro (hs | hs)
      · rcases ht.stays p hc with ⟨hc', -⟩ | ⟨-, hoff⟩
        · have hr := (h.inv.step ho).settled c p hc' (by rw [hp']; rfl)
          cases hr.symm.trans hs.1
        · cases hp'.symm.trans hoff
      · rw [hp'] at hs
        cases hs

theorem Mon.holder (h : Mon C s) (hx : s.phase p = some x) (hr : C.rests x = false) :
    ∃ c, s.k.spc c = .away p ∧ s.k.lock (.other C.lock) = some c := by
  have hb : (place s.k p).base ≠ .reacquire C.lock := by
    intro hb
    cases hr.symm.trans (h.rests p x hx hb)
  have hk := (h.within p x hx).resolve_right hb
  have hoff : s.k.pc p ≠ .off := by
    intro hoff
    rw [place_off hoff] at hk
    cases hk
  obtain ⟨c, hc⟩ := h.sleeps.on p hoff
  refine ⟨c, hc, (h.lock c).2 ?_⟩
  rw [place_eq rfl hoff] at hk
  rw [id, inside_away hc, hx, hk]
  rfl

/-- While a process with the lock is at rest, the others in the code rest. -/
theorem Mon.others_rest (h : Mon C s) (hc : s.k.spc c = .away p) (hp : s.k.pc p = .point .run)
    (hx : s.phase p = some x) (hq : q ≠ p) (hy : s.phase q = some y) : C.rests y = true := by
  by_contra hr
  obtain ⟨d, hd, hl⟩ := h.holder hy (Bool.not_eq_true _ ▸ hr)
  cases hl.symm.trans (h.has_lock hc hp hx)
  cases hc.symm.trans hd
  exact hq rfl

theorem Mon.all_rest (h : Mon C s) (hl : s.k.lock (.other C.lock) = none)
    (hx : s.phase p = some x) : C.rests x = true := by
  by_contra hr
  obtain ⟨c, -, hl'⟩ := h.holder hx (Bool.not_eq_true _ ▸ hr)
  cases hl.symm.trans hl'

theorem Mon.enter_free (h : Mon C s) (hc : s.k.spc c = .away p) (hp : s.k.pc p = .point .run)
    (ho : Sched.step s.k (c, .call (.acquire C.lock)) = .ok k') :
    s.k.lock (.other C.lock) = none := by
  obtain ⟨t, hf, hl⟩ := (tick_step h.inv ho).flow p hc
  rw [hp] at hf
  generalize place k' p = y at hf
  cases hf
  exact hl.1

end Mon

theorem Code.step_cases {C : Code δ φ ι} {s s' : Mst δ φ} (ho : C.step s (c, e) = .ok s') :
    (∃ a k', e = .sys a ∧ C.admits s c a = true ∧ Sched.step s.k (c, a) = .ok k' ∧
      s' = { s with k := k' }) ∨
    (∃ i p x d k', e = .code i ∧ s.k.spc c = .away p ∧ s.k.pc p = .point .run ∧
      s.phase p = none ∧ C.enter s.data i = some (d, x) ∧
      Sched.step s.k (c, .call (.acquire C.lock)) = .ok k' ∧
      s' = { k := k', data := d, phase := update s.phase p (some x) }) ∨
    ∃ i p x d o k', e = .code i ∧ s.k.spc c = .away p ∧ s.k.pc p = .point .run ∧
      s.phase p = some x ∧ C.run s.data (s.k.t.killed p) x i = some (d, o) ∧
      C.perform c s.k o = .ok k' ∧
      s' = { k := k', data := d, phase := update s.phase p o.next } := by
  unfold Code.step at ho
  cases e with
  | sys a =>
    dsimp only at ho
    obtain ⟨ha, ho⟩ := if_ok ho
    obtain ⟨k', hk, he⟩ := bind_ok ho
    exact .inl ⟨a, k', rfl, ha, hk, (Except.ok.inj he).symm⟩
  | code i =>
    right
    dsimp only at ho
    split at ho
    · next p hc =>
      obtain ⟨hp, ho⟩ := if_ok ho
      unfold Code.stepCode at ho
      split at ho
      · next hx =>
        split at ho
        · cases ho
        · next d x he =>
          obtain ⟨k', hk, hs⟩ := bind_ok ho
          exact .inl ⟨i, p, x, d, k', rfl, hc, hp, hx, he, hk, (Except.ok.inj hs).symm⟩
      · next x hx =>
        split at ho
        · cases ho
        · next d o hr =>
          obtain ⟨k', hk, hs⟩ := bind_ok ho
          exact .inr ⟨i, p, x, d, o, k', rfl, hc, hp, hx, hr, hk, (Except.ok.inj hs).symm⟩
    · cases ho

theorem Mon.step {C : Code δ φ ι} (h : Mon C s) (ho : C.step s e = .ok s') : Mon C s' := by
  rcases Code.step_cases ho with ⟨a, k', -, ha, hk, rfl⟩ |
    ⟨i, p, x, d, k', -, hc, hp, -, he, hk, rfl⟩ | ⟨i, p, x, d, o, k', -, hc, hp, hx, hr, hk, rfl⟩
  · exact h.sys ha hk
  · exact h.enter hc hp hk rfl (C.enter_woke he)
  · exact h.perform hc hp hx hr hk rfl

/-- No process sleeps on channel `n` or is about to. -/
def Silent (s : Mst δ φ) (n : Nat) : Prop :=
  ∀ p, ¬pending s.k (.addr n) p

theorem Mon.silent_step {C : Code δ φ ι} (h : Mon C s) (hn : n ∈ C.chans) (hs : Silent s n)
    (ho : C.step s (c, e) = .ok s')
    (hsleep : ∀ i p x x' d, e = .code i → s.k.spc c = .away p → s.phase p = some x →
      C.run s.data (s.k.t.killed p) x i ≠ some (d, .sleep n x')) : Silent s' n := by
  rcases Code.step_cases ho with ⟨a, k', -, ha, hk, rfl⟩ |
    ⟨i, p, x, d, k', -, hc, hp, hx, -, hk, rfl⟩ | ⟨i, p, x, d, o, k', rfl, hc, hp, hx, hr, hk, rfl⟩
  · exact fun q hq => hs q (h.pending_sys ha (tick_step h.inv hk) hn hq)
  · intro q hq
    rcases h.sleeps.pending_step (tick_step h.inv hk) hq with hq' | ⟨-, -, b, hb⟩
    · exact hs q hq'
    · cases hb
  · intro q hq
    cases o with
    | stay x' =>
      cases hk
      exact hs q hq
    | wakeup m x' =>
      rcases h.sleeps.pending_step (tick_step h.inv hk) hq with hq' | ⟨-, -, b, hb⟩
      · exact hs q hq'
      · cases hb
    | sleep m x' =>
      rcases h.sleeps.pending_step (tick_step h.inv hk) hq with hq' | ⟨-, -, b, hb⟩
      · exact hs q hq'
      · cases hb
        exact hsleep i p x x' d rfl hc hx hr
    | leave r =>
      rcases h.sleeps.pending_step (tick_step h.inv hk) hq with hq' | ⟨-, -, b, hb⟩
      · exact hs q hq'
      · cases hb

theorem Mon.not_pending {C : Code δ φ ι} (h : Mon C s) (hc : s.k.spc c = .away p)
    (hp : s.k.pc p = .point .run) : ¬pending s.k ch p := by
  rintro (hs | hs)
  · cases hs.1.symm.trans (h.inv.settled c p hc (by rw [hp]; rfl))
  · rw [hp] at hs
    cases hs

/-- After a `wakeup` under the lock, no process sleeps on its channel. -/
theorem Mon.silent_woken {C : Code δ φ ι} (h : Mon C s) (hn : n ∈ C.chans)
    (hx : s.phase p = some x) (hw : C.woke x = some n) (hp : s.k.pc p = .point .run) :
    Silent s n := by
  rcases h.woken p x n hx hw hn with ⟨w, hpc, -⟩ | ⟨-, hq⟩
  · cases hp.symm.trans hpc
  · exact hq

end Xv6.Sched
