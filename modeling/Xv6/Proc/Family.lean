import Xv6.Lib.Tracks
import Xv6.Proc.Tree

namespace Xv6.Proc.Tree
open Lib Function
set_option autoImplicit true

/-- A process that has not exited and whose `fork` is complete. -/
def live : ProcState → Bool
  | .sleeping => true
  | .runnable => true
  | .running => true
  | .unused => false
  | .embryo => false
  | .zombie => false

/-- Every process but init has a live parent, which is older. -/
structure Family (init : Slot) (state : Slot → ProcState) (parent : Slot → Option Slot)
    (pid : Slot → UInt32) : Prop where
  root : live (state init) = true ∧ parent init = none
  child : ∀ p, p ≠ init → live (state p) = true ∨ state p = .zombie → parent p ≠ none
  older : ∀ p q, parent p = some q → live (state q) = true ∧ (pid q).toNat < (pid p).toNat
  free : ∀ p, state p = .unused → parent p = none

/-- Processes have different pids, all issued before. -/
structure Pids (state : Slot → ProcState) (pid : Slot → UInt32) (next : UInt32) : Prop where
  issued : ∀ p, state p ≠ .unused → (pid p).toNat < next.toNat
  distinct : ∀ p q, state p ≠ .unused → state q ≠ .unused → pid p = pid q → p = q

/-- Every process in `fork` has a child of its own in its hands. -/
structure Forks (state : Slot → ProcState) (parent : Slot → Option Slot) (pid : Slot → UInt32)
    (pc : Slot → Pc) : Prop where
  busy : ∀ p np, (pc p).child = some np → (state p = .running ∨ state p = .runnable) ∧
    state np = .embryo ∧ (pid p).toNat < (pid np).toNat
  single : ∀ p q np, (pc p).child = some np → (pc q).child = some np → p = q
  embryo : ∀ p q, state p = .embryo → parent p = some q → pc q = .forkReady p
  adopted : ∀ p np, pc p = .forkReady np → parent np = some p
  idle : ∀ p, live (state p) = false → pc p = .user

/-- A process in `wait` that sleeps has no exited child. -/
def Waits (state : Slot → ProcState) (parent : Slot → Option Slot) (chan : Slot → Option Chan)
    (pc : Slot → Pc) : Prop :=
  ∀ p, pc p = .waiting → state p = .runnable ∨ state p = .sleeping ∧
    chan p = some (.proc p) ∧ ∀ q, parent q = some p → state q ≠ .zombie

def Obs.isWait (pid : UInt32) : Obs → Bool
  | .waited _ n => n = pid
  | _ => false

/-- Zombies have called `exit`, and no pid that `wait` returned is in use. -/
structure Reaped (state : Slot → ProcState) (pid : Slot → UInt32) (next : UInt32)
    (hist : List Obs) : Prop where
  exited : ∀ p, state p = .zombie → Obs.exited p (pid p) ∈ hist
  gone : ∀ p n, Obs.waited p n ∈ hist → n.toNat < next.toNat ∧
    ∀ q, state q ≠ .unused → pid q ≠ n
  once : ∀ n, hist.countP (Obs.isWait n) ≤ 1

structure Inv (s : St) : Prop where
  family : Family s.t.initproc s.t.state s.t.parent s.t.pid
  pids : Pids s.t.state s.t.pid s.t.nextpid
  forks : Forks s.t.state s.t.parent s.t.pid s.pc
  waits : Waits s.t.state s.t.parent s.t.chan s.pc
  reaped : Reaped s.t.state s.t.pid s.t.nextpid s.hist

theorem inv_boot (ticks : UInt32) : Inv (boot ticks) := by
  have hstate (p : Slot) (hp : p ≠ 0) : (boot ticks).t.state p = .unused := by
    simp [boot, userinit, hp]
  have hinit (p : Slot) (hp : (boot ticks).t.state p ≠ .unused) : p = 0 := by
    by_contra hne
    exact hp (hstate p hne)
  have hzero : (boot ticks).t.state 0 = .runnable := by
    simp [boot, userinit]
  constructor
  · constructor
    · exact ⟨rfl, rfl⟩
    · intro p hp hs
      rw [hstate p hp] at hs
      rcases hs with hs | hs <;> cases hs
    · exact fun p q h => by cases h
    · exact fun p _ => rfl
  · constructor
    · intro p hp
      rw [hinit p hp]
      simp [boot, userinit]
    · intro p q hp hq _
      rw [hinit p hp, hinit q hq]
  · constructor
    · exact fun p np h => by cases h
    · exact fun p q np h => by cases h
    · exact fun p q _ h => by cases h
    · exact fun p np h => by cases h
    · exact fun p _ => rfl
  · exact fun p h => by cases h
  · constructor
    · intro p hp
      rw [hinit p (by rw [hp]; nofun), hzero] at hp
      cases hp
    · exact fun p pid h => by cases h
    · exact fun pid => Nat.zero_le _

section Shift
variable {state state' : Slot → ProcState}

/-- Processes move between live states only. -/
def Shift (state state' : Slot → ProcState) : Prop :=
  ∀ p, state' p = state p ∨ live (state p) = true ∧ live (state' p) = true

theorem Shift.live (h : Shift state state') (p : Slot) : live (state' p) = live (state p) := by
  rcases h p with he | ⟨hs, hs'⟩
  · rw [he]
  · rw [hs, hs']

theorem Shift.eq_iff (h : Shift state state') (hx : Tree.live x = false) (p : Slot) :
    state' p = x ↔ state p = x := by
  rcases h p with he | ⟨hs, hs'⟩
  · rw [he]
  · constructor
    · rintro rfl
      cases hx.symm.trans hs'
    · rintro rfl
      cases hx.symm.trans hs

theorem Family.shift (h : Family init state parent pid) (hs : Shift state state') :
    Family init state' parent pid := by
  constructor
  · rw [hs.live]
    exact h.root
  · intro p hp hl
    rw [hs.live, hs.eq_iff rfl] at hl
    exact h.child p hp hl
  · intro p q hp
    rw [hs.live]
    exact h.older p q hp
  · intro p hp
    rw [hs.eq_iff rfl] at hp
    exact h.free p hp

theorem Pids.shift (h : Pids state pid next) (hs : Shift state state') :
    Pids state' pid next := by
  constructor
  · intro p hp
    rw [Ne, hs.eq_iff rfl] at hp
    exact h.issued p hp
  · intro p q hp hq
    rw [Ne, hs.eq_iff rfl] at hp hq
    exact h.distinct p q hp hq

theorem Forks.shift (h : Forks state parent pid pc) (hs : Shift state state')
    (hb : ∀ p np, (pc p).child = some np → state' p = .running ∨ state' p = .runnable) :
    Forks state' parent pid pc := by
  constructor
  · intro p np hp
    obtain ⟨-, hnp, hlt⟩ := h.busy p np hp
    rw [hs.eq_iff (x := .embryo) rfl]
    exact ⟨hb p np hp, hnp, hlt⟩
  · exact h.single
  · intro p q hp hq
    rw [hs.eq_iff rfl] at hp
    exact h.embryo p q hp hq
  · exact h.adopted
  · intro p hp
    rw [hs.live] at hp
    exact h.idle p hp

theorem Reaped.shift (h : Reaped state pid next hist) (hs : Shift state state') :
    Reaped state' pid next hist := by
  constructor
  · intro p hp
    rw [hs.eq_iff rfl] at hp
    exact h.exited p hp
  · intro p n hp
    obtain ⟨hlt, hne⟩ := h.gone p n hp
    refine ⟨hlt, fun q hq => ?_⟩
    rw [Ne, hs.eq_iff rfl] at hq
    exact hne q hq
  · exact h.once

end Shift

section Alloc
variable {state : Slot → ProcState}

theorem Family.alloc (h : Family init state parent pid) (hu : state np = .unused) :
    Family init (update state np .embryo) parent (update pid np n) := by
  constructor
  · grind [h.root, live]
  · intro p hp hl
    grind [h.child p hp, live]
  · intro p q hp
    grind [h.older p q hp, h.free p, live]
  · intro p hp
    grind [h.free p]

theorem Pids.alloc (h : Pids state pid next) (hn : next'.toNat = next.toNat + 1) :
    Pids (update state n .embryo) (update pid n next) next' := by
  constructor
  · intro p hp
    have hlt := h.issued p
    grind
  · intro p q hp hq he
    have hlt := h.issued
    have hd := h.distinct p q
    grind

theorem Forks.alloc (h : Forks state parent pid pc)
    (hi : ∀ q, state q ≠ .unused → (pid q).toNat < n.toNat)
    (hu : state np = .unused) (hf : parent np = none) (hp : pc p = .user)
    (hs : state p = .running) :
    Forks (update state np .embryo) parent (update pid np n)
      (update pc p (.forkStack np)) := by
  constructor
  · intro q r hq
    have hb := h.busy q r
    have hlt := hi p
    grind [Pc.child]
  · intro q r m hq hr
    have hbq := h.busy q m
    have hbr := h.busy r m
    have hs := h.single q r m
    grind [Pc.child]
  · intro q r hq hr
    grind [h.embryo q r]
  · intro q r hq
    grind [h.adopted q r]
  · intro q hq
    grind [h.idle q, live]

theorem Waits.alloc (h : Waits state parent chan pc) (hu : state np = .unused) :
    Waits (update state np .embryo) parent chan
      (update pc p (.forkStack np)) := by
  intro q hq
  have hw := h q
  grind

theorem Reaped.alloc (h : Reaped state pid next hist) (hn : next'.toNat = next.toNat + 1) :
    Reaped (update state k .embryo) (update pid k next) next' hist := by
  constructor
  · intro p hp
    have he := h.exited p
    grind
  · intro p n hp
    have hg := h.gone p n hp
    grind
  · exact h.once

theorem Inv.alloc (h : Inv s) (hl : s.t.nextpid.toNat ≤ 2 ^ 31) (hp : s.pc p = .user)
    (hs : s.t.state p = .running) (ha : allocSlot s.t = some (np, t)) :
    Inv (goto { s with t := t } p (.forkStack np)) := by
  obtain ⟨hu, hstate, hpid, hnext, hparent, hchan, -, hinit⟩ := allocSlot_some ha
  have hn : t.nextpid.toNat = s.t.nextpid.toNat + 1 := by
    rw [hnext, UInt32.toNat_add]
    exact Nat.mod_eq_of_lt (by simp; omega)
  have hfree := h.family.free np hu
  constructor
  · have hf := h.family.alloc (n := s.t.nextpid) hu
    rwa [← hstate, ← hpid, ← hparent, ← hinit] at hf
  · have hi := h.pids.alloc (n := np) hn
    rwa [← hstate, ← hpid] at hi
  · have hf := h.forks.alloc h.pids.issued hu hfree hp hs
    rwa [← hstate, ← hpid, ← hparent] at hf
  · have hw := h.waits.alloc (p := p) hu
    rwa [← hstate, ← hparent, ← hchan] at hw
  · have hr := h.reaped.alloc (k := np) hn
    rwa [← hstate, ← hpid] at hr

theorem Family.drop (h : Family init state parent pid) (he : state np = .embryo)
    (hf : parent np = none) : Family init (update state np .unused) parent pid := by
  constructor
  · grind [h.root, live]
  · intro p hp hl
    grind [h.child p hp, live]
  · intro p q hp
    grind [h.older p q hp, live]
  · intro p hp
    grind [h.free p]

theorem Pids.drop (h : Pids state pid next) :
    Pids (update state np .unused) pid next := by
  constructor
  · intro p hp
    have hlt := h.issued p
    grind
  · intro p q hp hq he
    have hd := h.distinct p q
    grind

theorem Forks.drop (h : Forks state parent pid pc) (hp : (pc p).child = some np) :
    Forks (update state np .unused) parent pid (update pc p .user) := by
  have hnp := h.busy p np hp
  constructor
  · intro q r hq
    have hb := h.busy q r
    have hs := h.single p q np hp
    grind [Pc.child]
  · intro q r m hq hr
    have hs := h.single q r m
    grind [Pc.child]
  · intro q r hq hr
    have he := h.embryo q r
    grind [Pc.child]
  · intro q r hq
    have ha := h.adopted q r
    grind
  · intro q hq
    have hi := h.idle q
    grind [live]

theorem Waits.drop (h : Waits state parent chan pc) (he : state np = .embryo) :
    Waits (update state np .unused) parent chan (update pc p .user) := by
  intro q hq
  have hw := h q
  grind

theorem Reaped.drop (h : Reaped state pid next hist) :
    Reaped (update state np .unused) pid next hist := by
  constructor
  · intro p hp
    have he := h.exited p
    grind
  · intro p n hp
    have hg := h.gone p n hp
    grind
  · exact h.once

theorem Forks.notReady (h : Forks state parent pid pc) (hp : (pc p).child = some np)
    (hr : pc p ≠ .forkReady np) : parent np = none := by
  obtain ⟨-, hnp, -⟩ := h.busy p np hp
  cases hq : parent np with
  | none => rfl
  | some q =>
    have hpc := h.embryo np q hnp hq
    have hqp := h.single q p np (by rw [hpc]; rfl) hp
    rw [hqp] at hpc
    exact absurd hpc hr

theorem Inv.drop (h : Inv s) (hp : (s.pc p).child = some np) (hr : s.pc p ≠ .forkReady np) :
    Inv (goto { s with t := setState np .unused s.t } p .user) := by
  obtain ⟨-, he, -⟩ := h.forks.busy p np hp
  have hf := h.forks.notReady hp hr
  constructor
  · exact h.family.drop he hf
  · exact h.pids.drop
  · exact h.forks.drop hp
  · exact h.waits.drop he
  · exact h.reaped.drop

end Alloc

section Fork
variable {state : Slot → ProcState}

theorem Family.adopt (h : Family init state parent pid) (hs : live (state p) = true)
    (he : state np = .embryo) (hlt : (pid p).toNat < (pid np).toNat) :
    Family init state (update parent np (some p)) pid := by
  have hne : np ≠ init := by
    rintro rfl
    cases (congrArg live he).symm.trans h.root.1
  constructor
  · rw [update_of_ne hne.symm]
    exact h.root
  · intro q hq hl
    have hc := h.child q hq hl
    grind
  · intro q r hq
    have ho := h.older q r
    grind
  · intro q hq
    have hf := h.free q hq
    grind

theorem Forks.adopt (h : Forks state parent pid pc) (hp : pc p = .forkParent np) :
    Forks state (update parent np (some p)) pid
      (update pc p (.forkReady np)) := by
  have hc : (pc p).child = some np := by
    rw [hp]
    rfl
  have hk (q : Slot) : (update pc p (.forkReady np) q).child = (pc q).child :=
    proj_update Pc.child pc (by rw [hc]; rfl) q
  constructor
  · intro q r hq
    rw [hk] at hq
    exact h.busy q r hq
  · intro q r m hq hr
    rw [hk] at hq hr
    exact h.single q r m hq hr
  · intro q r hq hr
    have he := h.embryo q r hq
    grind
  · intro q r hq
    have ha := h.adopted q r
    have hs := h.single p q np hc
    grind [Pc.child]
  · intro q hq
    have hi := h.idle q hq
    grind

theorem Waits.adopt (h : Waits state parent chan pc) (he : state np ≠ .zombie) :
    Waits state (update parent np (some p)) chan
      (update pc p (.forkReady np)) := by
  intro q hq
  have hq' : pc q = .waiting := by grind
  refine (h q hq').imp_right fun ⟨hs, hc, hz⟩ => ⟨hs, hc, fun r hr => ?_⟩
  by_cases hrn : r = np
  · rw [hrn]
    exact he
  · rw [update_of_ne hrn] at hr
    exact hz r hr

theorem Inv.adopt (h : Inv s) (hp : s.pc p = .forkParent np) :
    Inv (goto { s with t := adopt p np s.t } p (.forkReady np)) := by
  obtain ⟨hs, he, hlt⟩ := h.forks.busy p np (by rw [hp]; rfl)
  have hl : live (s.t.state p) = true := by
    rcases hs with hs | hs <;> rw [hs] <;> rfl
  constructor
  · exact h.family.adopt hl he hlt
  · exact h.pids
  · exact h.forks.adopt hp
  · exact h.waits.adopt (by rw [he]; nofun)
  · exact h.reaped

theorem Family.ready (h : Family init state parent pid) (hf : parent np ≠ none) :
    Family init (update state np .runnable) parent pid := by
  constructor
  · grind [h.root, live]
  · intro p hp hl
    have hc := h.child p hp
    grind
  · intro p q hp
    have ho := h.older p q hp
    grind [live]
  · intro p hp
    have hf := h.free p
    grind

theorem Pids.ready (h : Pids state pid next) (he : state np = .embryo) :
    Pids (update state np .runnable) pid next := by
  constructor
  · intro p hp
    have hlt := h.issued p
    grind
  · intro p q hp hq hpq
    have hd := h.distinct p q
    grind

theorem Forks.ready (h : Forks state parent pid pc) (hp : pc p = .forkReady np) :
    Forks (update state np .runnable) parent pid (update pc p .user) := by
  have hc : (pc p).child = some np := by
    rw [hp]
    rfl
  have hnp := h.busy p np hc
  constructor
  · intro q r hq
    have hb := h.busy q r
    have hs := h.single p q np hc
    grind [Pc.child]
  · intro q r m hq hr
    have hs := h.single q r m
    grind [Pc.child]
  · intro q r hq hr
    have he := h.embryo q r
    have ha := h.adopted
    grind
  · intro q r hq
    have ha := h.adopted q r
    grind
  · intro q hq
    have hi := h.idle q
    grind [live]

theorem Waits.ready (h : Waits state parent chan pc) :
    Waits (update state np .runnable) parent chan (update pc p .user) := by
  intro q hq
  have hw := h q
  grind

theorem Reaped.ready (h : Reaped state pid next hist) (he : state np = .embryo) :
    Reaped (update state np .runnable) pid next (hist ++ [.forked p n]) := by
  constructor
  · intro q hq
    have he := h.exited q
    grind
  · intro q m hq
    have hg := h.gone q m
    grind
  · intro m
    have ho := h.once m
    simpa [Obs.isWait] using ho

theorem Inv.ready (h : Inv s) (hp : s.pc p = .forkReady np) :
    Inv { t := setState np .runnable s.t
          pc := update s.pc p .user
          hist := s.hist ++ [.forked p (s.t.pid np)] } := by
  obtain ⟨-, he, -⟩ := h.forks.busy p np (by rw [hp]; rfl)
  have ha := h.forks.adopted p np hp
  constructor
  · exact h.family.ready (by rw [ha]; nofun)
  · exact h.pids.ready he
  · exact h.forks.ready hp
  · exact h.waits.ready
  · exact h.reaped.ready he

end Fork

theorem Family.first (h : Family init state parent pid) (hp : parent p = some q) :
    (pid init).toNat < (pid p).toNat := by
  induction hn : (pid p).toNat using Nat.strong_induction_on generalizing p q with
  | h n ih =>
    subst hn
    obtain ⟨hl, hlt⟩ := h.older p q hp
    by_cases hq : q = init
    · rwa [hq] at hlt
    · obtain ⟨r, hr⟩ := Option.ne_none_iff_exists'.1 (h.child q hq (.inl hl))
      exact Nat.lt_trans (ih _ hlt hr rfl) hlt

section Exit
variable {t t' : Ptable}

theorem Family.exit (h : Family t.initproc t.state t.parent t.pid) (he : Exited cur t t')
    (hc : cur ≠ t.initproc) (hs : t.state cur = .running) :
    Family t'.initproc t'.state t'.parent t'.pid := by
  have hinit : t'.initproc = t.initproc := by rw [he.frame]
  have hpid : t'.pid = t.pid := by rw [he.frame]
  have hself : t.parent cur ≠ some cur := fun hp => Nat.lt_irrefl _ (h.older cur cur hp).2
  rw [hinit, hpid]
  constructor
  · have hi := he.state t.initproc hc.symm
    have ho := he.other t.initproc
    grind [h.root, live]
  · intro p hp hl
    have hst := he.state p
    have hch := h.child p hp
    have hco := he.child p
    have hot := he.other p
    grind [live, he.zombie]
  · intro p q hp
    by_cases hpc : t.parent p = some cur
    · have hq : t.initproc = q := Option.some.inj ((he.child p hpc).symm.trans hp)
      have hi := he.state t.initproc hc.symm
      have hf := h.first hpc
      grind [h.root, live]
    · rw [he.other p hpc] at hp
      obtain ⟨hl, hlt⟩ := h.older p q hp
      have hq := he.state q
      refine ⟨?_, hlt⟩
      grind [live]
  · intro p hp
    have hst := he.state p
    have hfr := h.free p
    have hot := he.other p
    grind [he.zombie]

theorem Pids.exit (h : Pids t.state t.pid t.nextpid) (he : Exited cur t t')
    (hs : t.state cur = .running) : Pids t'.state t'.pid t'.nextpid := by
  have hnext : t'.nextpid = t.nextpid := by rw [he.frame]
  have hpid : t'.pid = t.pid := by rw [he.frame]
  have hused (p : Slot) (hp : t'.state p ≠ .unused) : t.state p ≠ .unused := by
    have hst := he.state p
    grind
  rw [hnext, hpid]
  constructor
  · exact fun p hp => h.issued p (hused p hp)
  · exact fun p q hp hq => h.distinct p q (hused p hp) (hused q hq)

theorem Forks.exit (h : Forks t.state t.parent t.pid pc) (he : Exited cur t t')
    (hs : t.state cur = .running) (hp : pc cur = .user) :
    Forks t'.state t'.parent t'.pid pc := by
  have hpid : t'.pid = t.pid := by rw [he.frame]
  rw [hpid]
  constructor
  · intro p np hc
    have hb := h.busy p np hc
    have hst := he.state p
    have hst' := he.state np
    grind [Pc.child]
  · exact h.single
  · intro p q hq hpq
    have hst := he.state p
    have hem := h.embryo p
    have hco := he.child p
    have hot := he.other p
    grind [he.zombie]
  · intro p np hr
    have had := h.adopted p np hr
    have hot := he.other np
    grind
  · intro p hl
    have hst := he.state p
    have hid := h.idle p
    grind [live]

theorem Waits.exit (h : Waits t.state t.parent t.chan pc) (he : Exited cur t t')
    (hself : t.parent cur ≠ some cur) (hp : pc cur = .user) :
    Waits t'.state t'.parent t'.chan pc := by
  have hchan : t'.chan = t.chan := by rw [he.frame]
  rw [hchan]
  intro p hw
  have hne : p ≠ cur := by
    rintro rfl
    cases hp.symm.trans hw
  rcases he.state p hne with hst | ⟨-, hst⟩
  · rcases h p hw with hr | ⟨hsl, hch, hz⟩
    · exact .inl (hst.trans hr)
    · obtain ⟨hpar, hinit⟩ := he.asleep p hne (hst.trans hsl)
      refine .inr ⟨hst.trans hsl, hch, fun q hq => ?_⟩
      have hco := he.child q
      have hot := he.other q
      have hcur := he.other cur hself
      have hstq := he.state q
      have hzq := hz q
      rw [hch] at hpar hinit
      grind
  · exact .inl hst

theorem Reaped.exit (h : Reaped t.state t.pid t.nextpid hist) (he : Exited cur t t')
    (hs : t.state cur = .running) :
    Reaped t'.state t'.pid t'.nextpid (hist ++ [.exited cur (t.pid cur)]) := by
  have hnext : t'.nextpid = t.nextpid := by rw [he.frame]
  have hpid : t'.pid = t.pid := by rw [he.frame]
  rw [hnext, hpid]
  constructor
  · intro p hp
    have hst := he.state p
    have hex := h.exited p
    grind
  · intro p n hp
    have hg := h.gone p n
    have hst := he.state
    grind
  · intro n
    have ho := h.once n
    simpa [Obs.isWait] using ho

theorem Inv.exit (h : Inv s) (hc : p ≠ s.t.initproc) (hs : s.t.state p = .running)
    (hp : s.pc p = .user) :
    Inv { s with t := exit p (turnaround p s.t), hist := s.hist ++ [.exited p (s.t.pid p)] } := by
  have he := exited (t := turnaround p s.t) hc
  have hself : s.t.parent p ≠ some p :=
    fun hp => Nat.lt_irrefl _ (h.family.older p p hp).2
  constructor
  · exact Family.exit (t := turnaround p s.t) h.family he hc hs
  · exact Pids.exit (t := turnaround p s.t) h.pids he hs
  · exact Forks.exit (t := turnaround p s.t) h.forks he hs hp
  · exact Waits.exit (t := turnaround p s.t) h.waits he hself hp
  · exact Reaped.exit (t := turnaround p s.t) h.reaped he hs

end Exit

end Xv6.Proc.Tree
