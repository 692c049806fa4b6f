import Xv6.Lib.Tracks
import Xv6.Sched.Moves

namespace Xv6.Sched
open Lib Proc Function
set_option autoImplicit true

/-- The process that a scheduler has chosen and not yet done with. -/
def SPc.claims : SPc → Option Slot
  | .enter p => some p
  | .load p => some p
  | .mark p => some p
  | .switch p => some p
  | .away p => some p
  | .back p => some p
  | .account p => some p
  | .clear p => some p
  | _ => none

def SPc.entered : SPc → Option Slot
  | .enter _ => none
  | x => x.claims

def SPc.loaded : SPc → Option Slot
  | .mark p => some p
  | .switch p => some p
  | .away p => some p
  | .back p => some p
  | _ => none

def SPc.chosen : SPc → Option Slot
  | .enter p => some p
  | .load p => some p
  | .mark p => some p
  | _ => none

theorem SPc.claims_of_chosen {x : SPc} (h : x.chosen = some p) : x.claims = some p := by
  cases x <;> first | exact h | cases h

def SPc.left : SPc → Option Slot
  | .back p => some p
  | .account p => some p
  | .clear p => some p
  | _ => none

theorem SPc.claims_of_left {x : SPc} (h : x.left = some p) : x.claims = some p := by
  cases x <;> first | exact h | cases h

theorem SPc.claims_of_entered {x : SPc} (h : x.entered = some p) : x.claims = some p := by
  cases x <;> first | exact h | cases h

theorem SPc.claims_of_loaded {x : SPc} (h : x.loaded = some p) : x.claims = some p := by
  cases x <;> first | exact h | cases h

theorem SPc.none_of_claims {x : SPc} (h : x.claims = none) :
    x.entered = none ∧ x.loaded = none ∧ x.left = none ∧ x.chosen = none := by
  cases x <;> first | exact ⟨rfl, rfl, rfl, rfl⟩ | cases h

/-- The scheduler has `ptable.lock`, or the process that it has entered. -/
def SPc.holds (pc : Slot → Pc) : SPc → Bool
  | .loop => false
  | .away p => (pc p).holds
  | .intr _ w => w.holds
  | _ => true

def held (s : St) (c : Cpu) : Bool :=
  (s.spc c).holds s.pc

/-- The slots that processes in `fork` are filling. -/
structure Forks (state : Slot → ProcState) (np : Slot → Option Slot) : Prop where
  embryo : ∀ p n, np p = some n → state n = .embryo
  single : ∀ p q n, np p = some n → np q = some n → p = q

structure Inv (s : St) : Prop where
  lock : Tracks (s.lock .ptable) id (held s)
  proc : ∀ c, s.proc c = (s.spc c).entered
  pgdir : ∀ c, s.pgdir c = (s.spc c).loaded
  unique : ∀ c d p, (s.spc c).claims = some p → (s.spc d).claims = some p → c = d
  running : ∀ p, s.t.state p = .running → ∃ c, (s.spc c).entered = some p
  settled : ∀ c p, s.spc c = .away p → (s.pc p).settled = true → s.t.state p = .running
  switch : ∀ c p, s.spc c = .switch p → s.t.state p = .running
  left : ∀ c p, (s.spc c).left = some p → s.t.state p ≠ .running
  chosen : ∀ c p, (s.spc c).chosen = some p → s.t.state p = .runnable
  forks : Forks s.t.state s.np

theorem boot_not_running (ticks : UInt32) (p : Slot) : (boot ticks).t.state p ≠ .running := by
  simp only [boot, userinit]
  grind

theorem inv_boot (ticks : UInt32) : Inv (boot ticks) := by
  constructor
  · intro c
    constructor <;> exact nofun
  · exact fun c => rfl
  · exact fun c => rfl
  · exact nofun
  · exact fun p hp => absurd hp (boot_not_running ticks p)
  · exact nofun
  · exact nofun
  · exact nofun
  · exact nofun
  · constructor <;> exact nofun

theorem Inv.away_unique (h : Inv s) (hc : s.spc c = .away p) (hd : s.spc d = .away p) : c = d :=
  h.unique c d p (by rw [hc]; rfl) (by rw [hd]; rfl)

theorem Inv.claims (h : Inv s) (hc : (s.spc c).claims = some p) :
    s.lock .ptable = some c ∨ s.t.state p = .running := by
  by_cases hl : held s c = true
  · exact .inl ((h.lock c).2 hl)
  · right
    unfold held SPc.holds at hl
    split at hl
    · next he => rw [he] at hc; cases hc
    · next q he =>
      have hq : q = p := by
        rw [he] at hc
        exact Option.some.inj hc
      subst hq
      apply h.settled c q he
      cases hx : s.pc q <;> simp_all [Pc.holds, Pc.settled]
    · next ch w he => rw [he] at hc; cases hc
    · exact absurd rfl hl

section Proc
variable {s s' : St} {c : Cpu} {p : Slot} {x : Pc}

theorem held_goto (h : Inv s) (hc : s.spc c = .away p) (hspc : s'.spc = s.spc)
    (hpc : s'.pc = update s.pc p x) :
    held s' = update (held s) c x.holds := by
  funext d
  by_cases hd : d = c
  · subst hd
    rw [update_self]
    unfold held
    rw [hspc, hc, hpc]
    simp [SPc.holds]
  · rw [update_of_ne hd]
    unfold held
    rw [hspc]
    cases hx : s.spc d with
    | away q =>
      have hq : q ≠ p := by
        rintro rfl
        exact hd (h.away_unique hx hc)
      simp only [SPc.holds, hpc, update_of_ne hq]
    | _ => rfl

/-- The other processes that run or may be chosen are as before. -/
def Steady (p : Slot) (t t' : Ptable) : Prop :=
  ∀ q, q ≠ p → (t'.state q = .running ↔ t.state q = .running) ∧
    (t.state q = .runnable → t'.state q = .runnable)

theorem Inv.proc_step (h : Inv s) (hc : s.spc c = .away p) (hspc : s'.spc = s.spc)
    (hproc : s'.proc = s.proc) (hpgdir : s'.pgdir = s.pgdir)
    (hpc : s'.pc = update s.pc p x)
    (hlock : Tracks (s'.lock .ptable) id (update (held s) c x.holds))
    (hrun : Steady p s.t s'.t) (hset : x.settled = true → s'.t.state p = .running) (hforks : Forks s'.t.state s'.np) :
    Inv s' := by
  constructor
  · rw [held_goto h hc hspc hpc]
    exact hlock
  · rw [hproc, hspc]
    exact h.proc
  · rw [hpgdir, hspc]
    exact h.pgdir
  · rw [hspc]
    exact h.unique
  · rw [hspc]
    intro q hq
    by_cases hqp : q = p
    · exact ⟨c, by rw [hc, hqp]; rfl⟩
    · rw [(hrun q hqp).1] at hq
      exact h.running q hq
  · rw [hspc]
    intro d q hd hs
    by_cases hqp : q = p
    · subst hqp
      rw [hpc, update_self] at hs
      exact hset hs
    · rw [hpc, update_of_ne hqp] at hs
      rw [(hrun q hqp).1]
      exact h.settled d q hd hs
  · rw [hspc]
    intro d q hd
    have hqp : q ≠ p := by
      rintro rfl
      have hdc := h.unique d c q (by rw [hd]; rfl) (by rw [hc]; rfl)
      rw [hdc, hc] at hd
      cases hd
    rw [(hrun q hqp).1]
    exact h.switch d q hd
  · rw [hspc]
    intro d q hd
    have hqp : q ≠ p := by
      rintro rfl
      have hdc := h.unique d c q (SPc.claims_of_left hd) (by rw [hc]; rfl)
      rw [hdc, hc] at hd
      cases hd
    rw [Ne, (hrun q hqp).1]
    exact h.left d q hd
  · rw [hspc]
    intro d q hd
    have hqp : q ≠ p := by
      rintro rfl
      have hdc := h.unique d c q (SPc.claims_of_chosen hd) (by rw [hc]; rfl)
      rw [hdc, hc] at hd
      cases hd
    exact (hrun q hqp).2 (h.chosen d q hd)
  · exact hforks

theorem held_away (hc : s.spc c = .away p) : held s c = (s.pc p).holds := by
  unfold held
  rw [hc]
  rfl

theorem Inv.running_at (h : Inv s) (hc : s.spc c = .away p) (hp : s.pc p = y)
    (hs : y.settled = true) : s.t.state p = .running :=
  h.settled c p hc (by rwa [hp])

theorem Inv.act (h : Inv s) (hc : s.spc c = .away p) (hp : s.pc p = y) (hx : x.holds = y.holds)
    (hrun : Steady p s.t t)
    (hset : x.settled = true → t.state p = .running) (hforks : Forks t.state np) :
    Inv (goto p x { s with t := t, np := np, context := ctx }) := by
  refine h.proc_step hc rfl rfl rfl rfl ?_ hrun hset hforks
  apply h.lock.keep rfl
  rw [hx, held_away hc, hp]

theorem Inv.go (h : Inv s) (hc : s.spc c = .away p) (hp : s.pc p = y) (hs : y.settled = true)
    (hx : x.holds = y.holds) : Inv (goto p x s) :=
  h.act hc hp hx (fun _ _ => ⟨Iff.rfl, id⟩) (fun _ => h.running_at hc hp hs) h.forks

theorem Inv.take (h : Inv s) (hc : s.spc c = .away p) (hp : s.pc p = y) (hs : y.settled = true)
    (hx : x.holds = true) (ho : acquire c .ptable s = .ok s') : Inv (goto p x s') := by
  obtain ⟨hl, rfl⟩ := acquire_ok ho
  refine h.proc_step hc rfl rfl rfl rfl ?_ (fun _ _ => ⟨Iff.rfl, id⟩)
    (fun _ => h.running_at hc hp hs) h.forks
  have ht := h.lock
  rw [hl] at ht
  have hto := ht.take (p := c) (x := x.holds) hx
  rwa [← update_self (f := s.lock) LockId.ptable (some c)] at hto

theorem Inv.drop (h : Inv s) (hc : s.spc c = .away p) (hp : s.pc p = y) (hs : y.settled = true)
    (hy : y.holds = true) (hx : x.holds = false) (ho : release c .ptable s = .ok s') :
    Inv (goto p x s') := by
  obtain ⟨hl, rfl⟩ := release_ok ho
  refine h.proc_step hc rfl rfl rfl rfl ?_ (fun _ _ => ⟨Iff.rfl, id⟩)
    (fun _ => h.running_at hc hp hs) h.forks
  have hto := h.lock.drop (p := c) (x := x.holds) rfl (by rw [id, held_away hc, hp, hy]) hx
  rwa [← update_self (f := s.lock) LockId.ptable none] at hto

theorem Inv.other (h : Inv s) (a : Nat) (o : Option Cpu) (n : Cpu → Nat) :
    Inv { s with lock := update s.lock (.other a) o, ncli := n } := by
  refine { h with lock := ?_ }
  have hne : LockId.ptable ≠ .other a := nofun
  change Tracks (update s.lock (.other a) o .ptable) id (held s)
  rw [update_of_ne hne]
  exact h.lock

theorem Keeps.steady (h : Keeps p t t') : Steady p t t' := by
  intro q hq
  have hk := h q hq
  grind

theorem Forks.keep (h : Forks t.state np) (hk : Keeps p t t') (hp : t.state p ≠ .embryo) :
    Forks t'.state np := by
  refine ⟨fun q n hq => ?_, h.single⟩
  have hn := h.embryo q n hq
  have hne : n ≠ p := by
    rintro rfl
    exact hp hn
  have hkn := hk n hne
  grind

theorem Inv.effect (h : Inv s) (hc : s.spc c = .away p) (hp : s.pc p = y)
    (hs : y.settled = true) (hx : x.holds = y.holds) (hk : Keeps p s.t t)
    (hset : x.settled = true → t.state p = .running) : Inv (goto p x { s with t := t }) := by
  refine h.act hc hp hx hk.steady hset (h.forks.keep hk ?_)
  rw [h.running_at hc hp hs]
  nofun

theorem Forks.set (h : Forks state np) (hn : np p = some n) (y : ProcState) :
    Forks (update state n y) (update np p none) := by
  constructor
  · intro q m hq
    have he := h.embryo q m
    have hs := h.single p q n hn
    grind
  · intro q r m hq hr
    have hs := h.single q r m
    grind

theorem Forks.alloc (h : Forks state np) (hn : state n = .unused) :
    Forks (update state n .embryo) (update np p (some n)) := by
  constructor
  · intro q m hq
    have he := h.embryo q m
    grind
  · intro q r m hq hr
    have hs := h.single q r m
    have heq := h.embryo q m
    have her := h.embryo r m
    grind

theorem Inv.cpu_step (h : Inv s) (hspc : s'.spc = update s.spc c y)
    (hproc : s'.proc = update s.proc c y.entered)
    (hpgdir : s'.pgdir = update s.pgdir c y.loaded)
    (hpc : ∀ d q, d ≠ c → s.spc d = .away q → s'.pc q = s.pc q)
    (hlock : Tracks (s'.lock .ptable) id (update (held s) c (held s' c)))
    (hclaims : ∀ p, y.claims = some p → ∀ d, d ≠ c → (s.spc d).claims ≠ some p)
    (hold : ∀ q, s.t.state q = .running → y.left ≠ some q → s'.t.state q = .running)
    (hnew : ∀ q, s'.t.state q = .running → y.entered = some q ∨ s.t.state q = .running ∧
      (s.spc c).entered ≠ some q)
    (haway : ∀ q, y = .away q → (s'.pc q).settled = true → s'.t.state q = .running)
    (hswitch : ∀ q, y = .switch q → s'.t.state q = .running)
    (hleft : ∀ q, y.left = some q → s'.t.state q ≠ .running)
    (hready : ∀ q, s.t.state q = .runnable → y.claims ≠ some q → s'.t.state q = .runnable)
    (hchosen : ∀ q, y.chosen = some q → s'.t.state q = .runnable)
    (hforks : Forks s'.t.state s'.np) : Inv s' := by
  have hspc' (d : Cpu) (hd : d ≠ c) : s'.spc d = s.spc d := by
    rw [hspc, update_of_ne hd]
  have hself : s'.spc c = y := by
    rw [hspc, update_self]
  have hother (d : Cpu) (q : Slot) (hd : d ≠ c) (hq : (s.spc d).claims = some q) :
      y.claims ≠ some q := fun hy => hclaims q hy d hd hq
  constructor
  · convert hlock using 1
    funext d
    by_cases hd : d = c
    · rw [hd, update_self]
    · rw [update_of_ne hd]
      unfold held
      rw [hspc' d hd]
      cases hx : s.spc d with
      | away q => simp only [SPc.holds, hpc d q hd hx]
      | _ => rfl
  · intro d
    by_cases hd : d = c
    · rw [hd, hself, hproc, update_self]
    · rw [hspc' d hd, hproc, update_of_ne hd]
      exact h.proc d
  · intro d
    by_cases hd : d = c
    · rw [hd, hself, hpgdir, update_self]
    · rw [hspc' d hd, hpgdir, update_of_ne hd]
      exact h.pgdir d
  · intro d e q hd he
    by_cases hdc : d = c
    · by_cases hec : e = c
      · rw [hdc, hec]
      · rw [hspc' e hec] at he
        rw [hdc, hself] at hd
        exact absurd hd (hother e q hec he)
    · rw [hspc' d hdc] at hd
      by_cases hec : e = c
      · rw [hec, hself] at he
        exact absurd he (hother d q hdc hd)
      · rw [hspc' e hec] at he
        exact h.unique d e q hd he
  · intro q hq
    rcases hnew q hq with hy | ⟨hr, hne⟩
    · exact ⟨c, by rw [hself, hy]⟩
    · obtain ⟨d, hd⟩ := h.running q hr
      have hdc : d ≠ c := by
        rintro rfl
        exact hne hd
      exact ⟨d, by rw [hspc' d hdc, hd]⟩
  · intro d q hd hs
    by_cases hdc : d = c
    · rw [hdc, hself] at hd
      exact haway q hd hs
    · rw [hspc' d hdc] at hd
      rw [hpc d q hdc hd] at hs
      refine hold q (h.settled d q hd hs) fun hl => ?_
      exact hother d q hdc (by rw [hd]; rfl) (SPc.claims_of_left hl)
  · intro d q hd
    by_cases hdc : d = c
    · rw [hdc, hself] at hd
      exact hswitch q hd
    · rw [hspc' d hdc] at hd
      refine hold q (h.switch d q hd) fun hl => ?_
      exact hother d q hdc (by rw [hd]; rfl) (SPc.claims_of_left hl)
  · intro d q hd
    by_cases hdc : d = c
    · rw [hdc, hself] at hd
      exact hleft q hd
    · rw [hspc' d hdc] at hd
      intro hr
      rcases hnew q hr with hy | ⟨hr', -⟩
      · exact hother d q hdc (SPc.claims_of_left hd) (SPc.claims_of_entered hy)
      · exact h.left d q hd hr'
  · intro d q hd
    by_cases hdc : d = c
    · rw [hdc, hself] at hd
      exact hchosen q hd
    · rw [hspc' d hdc] at hd
      exact hready q (h.chosen d q hd) (hother d q hdc (SPc.claims_of_chosen hd))
  · exact hforks

theorem Inv.sched (h : Inv s) (hc : s.spc c = .away p) (hl : s.lock .ptable = some c)
    (hr : s.t.state p ≠ .running) :
    Inv { s with
      context := update s.context p k
      pc := update s.pc p .off
      spc := update s.spc c (.back p) } := by
  have hproc : s.proc c = some p := by
    rw [h.proc, hc]
    rfl
  have hpgdir : s.pgdir c = some p := by
    rw [h.pgdir, hc]
    rfl
  refine h.cpu_step (y := .back p) rfl ?_ ?_ ?_ ?_ ?_ ?_ ?_ nofun nofun ?_
    (fun _ hq _ => hq) nofun h.forks
  · exact (update_eq_self_iff.2 hproc.symm).symm
  · exact (update_eq_self_iff.2 hpgdir.symm).symm
  · intro d q hd hq
    have hqp : q ≠ p := by
      rintro rfl
      exact hd (h.away_unique hq hc)
    exact update_of_ne hqp ..
  · apply h.lock.keep rfl
    rw [(h.lock c).1 hl]
    simp [held, SPc.holds]
  · intro q hq d hd hclaim
    exact hd (h.unique d c q hclaim (by rw [hc]; exact hq))
  · intro q hq _
    exact hq
  · intro q hq
    by_cases hqp : q = p
    · exact .inl (congrArg some hqp.symm)
    · refine .inr ⟨hq, ?_⟩
      rw [hc]
      exact fun he => hqp (Option.some.inj he).symm
  · intro q hq
    cases hq
    exact hr

theorem Inv.fork_set (h : Inv s) (hc : s.spc c = .away p) (hp : s.pc p = y)
    (hs : y.settled = true) (hx : x.holds = y.holds) (hn : s.np p = some n) (hz : z ≠ .running) :
    Inv (goto p x { s with t := setState n z s.t, np := update s.np p none }) := by
  have hr := h.running_at hc hp hs
  have he := h.forks.embryo p n hn
  refine h.act hc hp hx (fun q _ => ?_) (fun _ => ?_) (h.forks.set hn z)
  · by_cases hq : q = n
    · subst hq
      rw [setState_self, he]
      exact ⟨⟨fun h => absurd h hz, nofun⟩, nofun⟩
    · rw [setState_of_ne hq]
      exact ⟨Iff.rfl, id⟩
  · have hpn : p ≠ n := by
      rintro rfl
      cases hr.symm.trans he
    rw [setState_of_ne hpn]
    exact hr

theorem Inv.alloc (h : Inv s) (hc : s.spc c = .away p) (hp : s.pc p = .forkAlloc)
    (ha : allocSlot s.t = some (n, t)) :
    Inv (goto p (.unlock .forkBody) { s with
      t := t
      np := update s.np p (some n)
      context := update s.context n .forkret }) := by
  obtain ⟨hu, hstate, -⟩ := allocSlot_some ha
  have hr := h.running_at hc hp rfl
  have hforks := h.forks.alloc (p := p) hu
  rw [← hstate] at hforks
  refine h.act hc hp rfl (fun q _ => ?_) (fun _ => ?_) hforks
  · rw [hstate]
    grind
  · rw [hstate]
    grind

theorem Inv.move (h : Inv s) (hc : s.spc c = .away p) (hp : s.pc p = x) (hm : Move c p s a x s') :
    Inv s' := by
  cases hm with
  | go _ _ hs hh => exact h.go hc hp hs hh
  | take _ _ hs hh ho => exact h.take hc hp hs hh ho
  | drop _ _ hs hx hh ho => exact h.drop hc hp hs hx hh ho
  | takeOther _ _ hs hh ho =>
    obtain ⟨-, rfl⟩ := acquire_ok ho
    exact (h.other ..).go hc hp hs hh
  | dropOther _ _ hs hh ho =>
    obtain ⟨-, rfl⟩ := release_ok ho
    exact (h.other ..).go hc hp hs hh
  | effect _ _ hs hh _ hk _ hr => exact h.effect hc hp hs hh hk fun _ => hr (h.running_at hc hp hs)
  | child _ _ hs hh hn hr => exact h.fork_set hc hp hs hh hn hr
  | alloc ha => exact h.alloc hc hp ha
  | wake hj =>
    refine h.effect hc hp rfl rfl (keeps_wakeOne p _ _ _) fun _ => ?_
    exact ((wakes_wakeOne _ s.t _).running p).2 (h.running_at hc hp rfl)
  | chan => exact h.effect hc hp rfl rfl (keeps_of_state rfl) fun _ => h.running_at hc hp rfl
  | sleep => exact h.effect hc hp rfl rfl (keeps_setState p _ _) nofun
  | yield => exact h.effect hc hp rfl rfl (keeps_setState p _ _) nofun
  | exit => exact h.effect hc hp rfl rfl (keeps_exit p s.t) nofun
  | sched hl hr => exact h.sched hc hl hr

end Proc

end Xv6.Sched
