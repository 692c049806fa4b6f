import Xv6.Ide.Driver
import Xv6.Lib.Chain
import Xv6.Lib.Tracks

namespace Xv6.Ide
open Lib Function
set_option autoImplicit true

/-- What a step of the driver, a process or the controller can do. -/
inductive Move (s : St) : St → Prop where
  | lock : s.holder b = none → Move s { s with holder := update s.holder b (some p) }
  | modify : s.pc p = .idle → s.holder b = some p → Move s (s.setBuf b v)
  | unlock : s.pc p = .idle → s.holder b = some p →
      Move s { s with holder := update s.holder b none }
  | iderw : s.pc p = .idle → s.holder b = some p → (s.buf b).synced = false →
      Move s (s.goto p (.acquire b))
  | awake : s.pc p = .asleep b → Move s (s.goto p (.reacquire b))
  | disk : s.hw.busy = some c → Move s { s with hw := s.hw.complete c }
  | intr : s.pc p = .idle → s.hw.irqs ≠ 0 →
      Move s ({ s with hw := { s.hw with irqs := s.hw.irqs - 1 } }.goto p (.intrAcquire false))
  | spurious : s.pc p = .idle → Move s (s.goto p (.intrAcquire true))
  | acquire : s.pc p = .acquire b → s.idelock = none →
      Move s ({ s with qnext := update s.qnext b none }.hold p (.walk b none))
  | walk : s.pc p = .walk b pp → s.deref pp = some y → Move s (s.goto p (.walk b (some y)))
  | append : s.pc p = .walk b pp → s.deref pp = none →
      Move s (((s.store b pp).record p b).goto p (.start b))
  | start : s.pc p = .start b → s.idequeue = some b → (s.buf b).blockno.toNat < fsSize →
      s.hw.busy = none → Move s ((s.issue b).goto p (.test b))
  | queued : s.pc p = .start b → s.idequeue ≠ some b → Move s (s.goto p (.test b))
  | sleep : s.pc p = .test b → (s.buf b).synced = false → Move s (s.release p (.asleep b))
  | synced : s.pc p = .test b → (s.buf b).synced = true → Move s (s.goto p (.release b))
  | reacquire : s.pc p = .reacquire b → s.idelock = none → Move s (s.hold p (.test b))
  | ret : s.pc p = .release b → Move s ((s.returned p b).release p .idle)
  | intrAcquire : s.pc p = .intrAcquire y → s.idelock = none → (y = true → s.idequeue = none) →
      Move s (s.hold p (.take y))
  | empty : s.pc p = .take y → s.idequeue = none → Move s (s.goto p .intrRelease)
  | take : s.pc p = .take y → s.idequeue = some b →
      Move s ({ s with idequeue := s.qnext b }.goto p (.read b))
  | written : s.pc p = .read b → (s.buf b).dirty = true → Move s (s.goto p (.mark b))
  | insl : s.pc p = .read b → (s.buf b).dirty = false →
      Move s ((s.setBuf b { s.buf b with data := s.hw.data }).goto p (.mark b))
  | mark : s.pc p = .mark b → Move s ((s.finish b).goto p (.wake b))
  | wake : s.pc p = .wake b → Move s ((s.wakeup b).goto p .next)
  | last : s.pc p = .next → s.idequeue = none → Move s (s.goto p .intrRelease)
  | next : s.pc p = .next → s.idequeue = some b → (s.buf b).blockno.toNat < fsSize →
      s.hw.busy = none → Move s ((s.issue b).goto p .intrRelease)
  | intrRelease : s.pc p = .intrRelease → Move s (s.release p .idle)

theorem acquire_ok {s s' : St} (ho : s.acquire p x = .ok s') : s.idelock = none ∧ s' = s.hold p x := by
  rw [St.acquire] at ho
  obtain ⟨hl, ho⟩ := if_ok ho
  cases ho
  exact ⟨hl, rfl⟩

theorem idestart_ok {s s' : St} (ho : s.idestart b = .ok s') :
    (s.buf b).blockno.toNat < fsSize ∧ s.hw.busy = none ∧ s' = s.issue b := by
  rw [St.idestart] at ho
  obtain ⟨hlt, ho⟩ := unless_ok ho
  obtain ⟨hb, ho⟩ := unless_ok ho
  cases ho
  exact ⟨Nat.lt_of_not_le hlt, Option.not_isSome_iff_eq_none.1 hb, rfl⟩

theorem iderw_ok {s s' : St} (ho : s.iderw p b = .ok s') :
    s.holder b = some p ∧ (s.buf b).synced = false ∧ s' = s.goto p (.acquire b) := by
  rw [St.iderw] at ho
  obtain ⟨hh, ho⟩ := unless_ok ho
  obtain ⟨hs, ho⟩ := unless_ok ho
  split at ho
  · cases ho
  · cases ho
    exact ⟨not_not.1 hh, Bool.eq_false_iff.2 hs, rfl⟩

theorem move_of_go {s s' : St} (hl : legal s (.go p) = true) (ho : s.go p = .ok s') : Move s s' := by
  rw [St.go] at ho
  split at ho
  · cases ho
  · next b hp =>
    obtain ⟨hlock, rfl⟩ := acquire_ok ho
    exact .acquire hp hlock
  · next b pp hp =>
    split at ho
    · next y hy =>
      cases ho
      exact .walk hp hy
    · next hy =>
      cases ho
      exact .append hp hy
  · next b hp =>
    split at ho
    · next hq =>
      obtain ⟨t, ht, ho⟩ := bind_ok ho
      obtain ⟨hn, hb, rfl⟩ := idestart_ok ht
      cases ho
      exact .start hp hq hn hb
    · next hq =>
      cases ho
      exact .queued hp hq
  · next b hp =>
    split at ho
    · next hs =>
      cases ho
      exact .synced hp hs
    · next hs =>
      cases ho
      exact .sleep hp (Bool.eq_false_iff.2 hs)
  · cases ho
  · next b hp =>
    obtain ⟨hlock, rfl⟩ := acquire_ok ho
    exact .reacquire hp hlock
  · next b hp =>
    cases ho
    exact .ret hp
  · next y hp =>
    obtain ⟨hlock, rfl⟩ := acquire_ok ho
    refine .intrAcquire hp hlock ?_
    rintro rfl
    rcases of_decide_eq_true hl with hne | hq
    · exact absurd hp hne
    · exact hq
  · next y hp =>
    split at ho
    · next hq =>
      cases ho
      exact .empty hp hq
    · next b hq =>
      cases ho
      exact .take hp hq
  · next b hp =>
    split at ho
    · next hd =>
      cases ho
      exact .written hp hd
    · next hd =>
      split at ho
      · cases ho
      · cases ho
        exact .insl hp (Bool.eq_false_iff.2 hd)
  · next b hp =>
    cases ho
    exact .mark hp
  · next b hp =>
    cases ho
    exact .wake hp
  · next hp =>
    split at ho
    · next hq =>
      cases ho
      exact .last hp hq
    · next b hq =>
      obtain ⟨t, ht, ho⟩ := bind_ok ho
      obtain ⟨hn, hb, rfl⟩ := idestart_ok ht
      cases ho
      exact .next hp hq hn hb
  · next hp =>
    cases ho
    exact .intrRelease hp

theorem move_of_step {s s' : St} (hl : legal s e = true) (ho : step s e = .ok s') : Move s s' := by
  cases e with
  | lock p b =>
    obtain ⟨h, rfl⟩ := ite_ok ho
    exact .lock h.2
  | modify p b v =>
    obtain ⟨h, rfl⟩ := ite_ok ho
    exact .modify h.1 h.2
  | unlock p b =>
    obtain ⟨h, rfl⟩ := ite_ok ho
    exact .unlock h.1 h.2
  | iderw p b =>
    rw [step] at ho
    obtain ⟨hp, ho⟩ := if_ok ho
    obtain ⟨hh, hs, rfl⟩ := iderw_ok ho
    exact .iderw hp hh hs
  | kill p =>
    rw [step] at ho
    split at ho
    · next b hp =>
      cases ho
      exact .awake hp
    · cases ho
  | disk =>
    rw [step] at ho
    split at ho
    · next c hc =>
      cases ho
      exact .disk hc
    · cases ho
  | intr p =>
    obtain ⟨h, rfl⟩ := ite_ok ho
    exact .intr h.1 (Nat.pos_iff_ne_zero.1 h.2)
  | spurious p =>
    obtain ⟨h, rfl⟩ := ite_ok ho
    exact .spurious h
  | go p => exact move_of_go hl ho

def Pc.locked : Pc → Bool
  | .walk _ _ | .start _ | .test _ | .release _ | .take _ | .read _ | .mark _ | .wake _ | .next
  | .intrRelease => true
  | _ => false

/-- How far a process is in `iderw`: request not queued, queued, or done. -/
inductive Stage where
  | asks
  | waits
  | leaves
  deriving DecidableEq

def Pc.role : Pc → Option (Stage × Nat)
  | .acquire b | .walk b _ => some (.asks, b)
  | .start b | .test b | .asleep b | .reacquire b => some (.waits, b)
  | .release b => some (.leaves, b)
  | _ => none

namespace St

def reqs (s : St) : List Nat :=
  s.log.map Prod.fst

def owner (s : St) : Pc :=
  match s.idelock with
  | some p => s.pc p
  | none => .idle

end St

/-- Every process in `iderw` has its buffer locked; some process waits for each request not done. -/
structure Owners (s : St) : Prop where
  lock : Tracks s.idelock Pc.locked s.pc
  holder : ∀ p st b, (s.pc p).role = some (st, b) → s.holder b = some p
  mine : ∀ p st b, (s.pc p).role = some (st, b) → st ≠ .asks → s.reqs[s.mine p]? = some b
  pending : ∀ j, s.dones.length ≤ j → j < s.reqs.length →
    ∃ p b, (s.pc p).role = some (.waits, b) ∧ s.mine p = j
  done : ∀ p b, (s.pc p).role = some (.leaves, b) → s.mine p < s.dones.length

theorem getElem?_of_prefix {l l' : List α} {i : Nat} (h : l <+: l') (hi : l[i]? = some a) :
    l'[i]? = some a := by
  obtain ⟨r, rfl⟩ := h
  rw [List.getElem?_append_left (List.getElem?_eq_some_iff.1 hi).1, hi]

section
variable {s s' : St} {p : Pid}

theorem Owners.congr (h : Owners s) (hlock : Tracks s'.idelock Pc.locked s'.pc)
    (hrole : ∀ p, (s'.pc p).role = (s.pc p).role) (hholder : s'.holder = s.holder)
    (hreqs : s'.reqs = s.reqs) (hmine : s'.mine = s.mine) (hdones : s.dones <+: s'.dones) :
    Owners s' := by
  have hlen := hdones.length_le
  constructor
  · exact hlock
  · intro p st b hp
    rw [hrole] at hp
    rw [hholder]
    exact h.holder p st b hp
  · intro p st b hp hst
    rw [hrole] at hp
    rw [hreqs, hmine]
    exact h.mine p st b hp hst
  · intro j hj hlt
    rw [hreqs] at hlt
    obtain ⟨p, b, hp, hm⟩ := h.pending j (by omega) hlt
    exact ⟨p, b, by rw [hrole, hp], by rw [hmine, hm]⟩
  · intro p b hp
    rw [hrole] at hp
    rw [hmine]
    exact Nat.lt_of_lt_of_le (h.done p b hp) hlen

theorem Owners.unique (h : Owners s) (hp : (s.pc p).role = some (st, b))
    (hq : (s.pc q).role = some (st', b)) : p = q :=
  Option.some.inj ((h.holder p st b hp).symm.trans (h.holder q st' b hq))

theorem Owners.idelock_eq (h : Owners s) (hp : s.pc p = y) (hy : y.locked = true) :
    s.idelock = some p := by
  apply (h.lock p).2
  rw [hp, hy]

theorem Owners.owner_eq (h : Owners s) (hp : s.pc p = y) (hy : y.locked = true) : s.owner = y := by
  rw [St.owner, h.idelock_eq hp hy]
  exact hp

theorem Owners.aside (h : Owners s) : Owners { s with
    buf := f, qnext := g, idequeue := o, hw := hw, starts := l } :=
  ⟨h.lock, h.holder, h.mine, h.pending, h.done⟩

theorem Owners.keep (h : Owners s) (hp : s.pc p = y) (hlock : x.locked = y.locked)
    (hrole : x.role = y.role) : Owners (s.goto p x) := by
  subst hp
  exact h.congr (h.lock.keep rfl hlock) (proj_update Pc.role s.pc hrole) rfl rfl rfl
    (List.prefix_refl _)

theorem Owners.hold (h : Owners s) (hl : s.idelock = none) (hp : s.pc p = y)
    (hlock : x.locked = true) (hrole : x.role = y.role) : Owners (s.hold p x) := by
  subst hp
  have htake := h.lock
  rw [hl] at htake
  exact h.congr (htake.take hlock) (proj_update Pc.role s.pc hrole) rfl rfl rfl
    (List.prefix_refl _)

theorem Owners.release (h : Owners s) (hp : s.pc p = y) (hy : y.locked = true)
    (hlock : x.locked = false) (hrole : x.role = y.role) : Owners (s.release p x) := by
  subst hp
  exact h.congr (h.lock.drop rfl hy hlock) (proj_update Pc.role s.pc hrole) rfl rfl rfl
    (List.prefix_refl _)

theorem Owners.become (h : Owners s) (hlock : Tracks s'.idelock Pc.locked s'.pc)
    (hpc : s'.pc = update s.pc p x) (hholder : s'.holder = s.holder)
    (hreqs : s.reqs <+: s'.reqs) (hmine : ∀ q, q ≠ p → s'.mine q = s.mine q)
    (hdones : s'.dones = s.dones)
    (hx : ∀ st b, x.role = some (st, b) → s.holder b = some p ∧
      (st ≠ .asks → s'.reqs[s'.mine p]? = some b) ∧ (st = .leaves → s'.mine p < s.dones.length))
    (hnew : ∀ j, s.dones.length ≤ j → j < s'.reqs.length → s.reqs.length ≤ j ∨
      (∃ b, (s.pc p).role = some (.waits, b) ∧ s.mine p = j) →
        ∃ b, x.role = some (.waits, b) ∧ s'.mine p = j) : Owners s' := by
  have hcases (q : Pid) (y : Stage × Nat) (hq : (s'.pc q).role = some y) :
      q = p ∧ x.role = some y ∨ q ≠ p ∧ (s.pc q).role = some y := by
    rw [hpc] at hq
    exact update_cases (P := fun x => Pc.role x = some y) hq
  have hself : s'.pc p = x := by rw [hpc, update_self]
  constructor
  · exact hlock
  · intro q st b hq
    rw [hholder]
    rcases hcases q _ hq with ⟨rfl, hq⟩ | ⟨-, hq⟩
    · exact (hx st b hq).1
    · exact h.holder q st b hq
  · intro q st b hq hst
    rcases hcases q _ hq with ⟨rfl, hq⟩ | ⟨hqp, hq⟩
    · exact (hx st b hq).2.1 hst
    · rw [hmine q hqp]
      exact getElem?_of_prefix hreqs (h.mine q st b hq hst)
  · intro j hj hlt
    rw [hdones] at hj
    by_cases hp : s.reqs.length ≤ j ∨ ∃ b, (s.pc p).role = some (.waits, b) ∧ s.mine p = j
    · obtain ⟨b, hb, hm⟩ := hnew j hj hlt hp
      exact ⟨p, b, by rw [hself, hb], hm⟩
    · rw [not_or, Nat.not_le] at hp
      obtain ⟨q, b, hq, hm⟩ := h.pending j hj hp.1
      have hqp : q ≠ p := by
        rintro rfl
        exact hp.2 ⟨b, hq, hm⟩
      exact ⟨q, b, by rw [hpc, update_of_ne hqp, hq], by rw [hmine q hqp, hm]⟩
  · intro q b hq
    rw [hdones]
    rcases hcases q _ hq with ⟨rfl, hq⟩ | ⟨hqp, hq⟩
    · exact (hx _ b hq).2.2 rfl
    · rw [hmine q hqp]
      exact h.done q b hq

theorem Owners.iderw (h : Owners s) (hp : s.pc p = .idle) (hb : s.holder b = some p) :
    Owners (s.goto p (.acquire b)) := by
  refine h.become (h.lock.keep hp rfl) rfl rfl (List.prefix_refl _) (fun _ _ => rfl) rfl
    ?_ ?_
  · rintro st b' ⟨⟩
    exact ⟨hb, fun hst => absurd rfl hst, nofun⟩
  · rintro j - hlt (hle | ⟨b', hb', -⟩)
    · exact absurd hlt (Nat.not_lt.2 hle)
    · rw [hp] at hb'
      cases hb'

theorem store_frame (s : St) (b : Nat) (pp : Option Nat) :
    ∃ g o, s.store b pp = { s with qnext := g, idequeue := o } := by
  cases pp <;> exact ⟨_, _, rfl⟩

theorem reqs_append (s : St) (p : Pid) (b : Nat) : (s.record p b).reqs = s.reqs ++ [b] :=
  List.map_append

theorem Owners.append (h : Owners s) (hp : s.pc p = .walk b pp) :
    Owners (((s.store b pp).record p b).goto p (.start b)) := by
  obtain ⟨g, o, he⟩ := store_frame s b pp
  have hreqs : (((s.store b pp).record p b).goto p (.start b)).reqs = s.reqs ++ [b] := by
    rw [he]
    exact reqs_append s p b
  have hlen : s.log.length = s.reqs.length := (List.length_map _).symm
  rw [he] at hreqs ⊢
  refine h.become (p := p) (x := .start b) (h.lock.keep hp rfl) rfl rfl ?_ ?_ rfl ?_ ?_
  · rw [hreqs]
    exact List.prefix_append _ _
  · exact fun q hq => update_of_ne hq ..
  · rintro st b' ⟨⟩
    refine ⟨h.holder p .asks b (by rw [hp]; rfl), fun _ => ?_, nofun⟩
    rw [hreqs]
    simp only [St.record, St.goto, update_self, hlen, List.getElem?_concat_length]
  · rintro j - hlt (hle | ⟨b', hb', -⟩)
    · refine ⟨b, rfl, ?_⟩
      rw [hreqs, List.length_append, List.length_singleton] at hlt
      simp only [St.record, St.goto, update_self]
      omega
    · rw [hp] at hb'
      cases hb'

theorem Owners.leave (h : Owners s) (hp : s.pc p = .test b) (hd : s.mine p < s.dones.length) :
    Owners (s.goto p (.release b)) := by
  have hrole : (s.pc p).role = some (.waits, b) := by
    rw [hp]
    rfl
  refine h.become (h.lock.keep hp rfl) rfl rfl (List.prefix_refl _) (fun _ _ => rfl) rfl
    ?_ ?_
  · rintro st b' ⟨⟩
    exact ⟨h.holder p _ b hrole, fun _ => h.mine p _ b hrole nofun, fun _ => hd⟩
  · rintro j hj hlt (hle | ⟨b', -, rfl⟩)
    · exact absurd hlt (Nat.not_lt.2 hle)
    · exact absurd hd (Nat.not_lt.2 hj)

theorem Owners.ret (h : Owners s) (hp : s.pc p = .release b) :
    Owners ((s.returned p b).release p .idle) := by
  refine h.become (h.lock.drop hp rfl rfl) rfl rfl (List.prefix_refl _)
    (fun _ _ => rfl) rfl ?_ ?_
  · rintro st b' ⟨⟩
  · rintro j hj hlt (hle | ⟨b', hb', -⟩)
    · exact absurd hlt (Nat.not_lt.2 hle)
    · rw [hp] at hb'
      cases hb'

theorem role_wakeup (s : St) (b : Nat) (p : Pid) :
    ((s.wakeup b).pc p).role = (s.pc p).role ∧ ((s.wakeup b).pc p).locked = (s.pc p).locked := by
  simp only [St.wakeup]
  split
  · next hp =>
    rw [hp]
    exact ⟨rfl, rfl⟩
  · exact ⟨rfl, rfl⟩

theorem wakeup_of_ne (hp : s.pc p = y) (hy : y ≠ .asleep b) : (s.wakeup b).pc p = y := by
  subst hp
  exact if_neg hy

theorem Owners.wakeup (h : Owners s) (b : Nat) : Owners (s.wakeup b) :=
  h.congr (h.lock.congr fun p => (role_wakeup s b p).2) (fun p => (role_wakeup s b p).1) rfl rfl rfl
    (List.prefix_refl _)

/-- A process that finds its buffer in order has its request done. -/
def Sure (s : St) : Prop :=
  ∀ p b, s.pc p = .test b → (s.buf b).synced = true → s.mine p < s.dones.length

theorem Owners.step (h : Owners s) (hs : Sure s) (hm : Move s s') : Owners s' := by
  cases hm with
  | @lock b p hb =>
    refine ⟨h.lock, ?_, h.mine, h.pending, h.done⟩
    intro q st b' hr
    have hq := h.holder q st b' hr
    have hne : b' ≠ b := by
      rintro rfl
      cases hb.symm.trans hq
    show update s.holder b (some p) b' = some q
    rw [update_of_ne hne, hq]
  | modify _ _ => exact ⟨h.lock, h.holder, h.mine, h.pending, h.done⟩
  | @unlock p b hp hb =>
    refine ⟨h.lock, ?_, h.mine, h.pending, h.done⟩
    intro q st b' hr
    have hq := h.holder q st b' hr
    have hne : b' ≠ b := by
      rintro rfl
      obtain rfl := Option.some.inj (hb.symm.trans hq)
      rw [hp] at hr
      cases hr
    show update s.holder b none b' = some q
    rw [update_of_ne hne, hq]
  | iderw hp hb _ => exact h.iderw hp hb
  | awake hp => exact h.keep hp rfl rfl
  | disk _ => exact ⟨h.lock, h.holder, h.mine, h.pending, h.done⟩
  | intr hp _ => exact h.aside.keep hp rfl rfl
  | spurious hp => exact h.keep hp rfl rfl
  | acquire hp hl => exact h.aside.hold hl hp rfl rfl
  | walk hp _ => exact h.keep hp rfl rfl
  | append hp _ => exact h.append hp
  | start hp _ _ _ => exact h.aside.keep hp rfl rfl
  | queued hp _ => exact h.keep hp rfl rfl
  | sleep hp _ => exact h.release hp rfl rfl rfl
  | @synced p b hp hb => exact h.leave hp (hs p b hp hb)
  | reacquire hp hl => exact h.hold hl hp rfl rfl
  | ret hp => exact h.ret hp
  | intrAcquire hp hl _ => exact h.hold hl hp rfl rfl
  | empty hp _ => exact h.keep hp rfl rfl
  | take hp _ => exact h.aside.keep hp rfl rfl
  | written hp _ => exact h.keep hp rfl rfl
  | insl hp _ => exact h.aside.keep hp rfl rfl
  | mark hp =>
    exact h.congr (h.lock.keep hp rfl) (proj_update Pc.role s.pc (by rw [hp]; rfl))
      rfl rfl rfl (List.prefix_append _ _)
  | @wake _ b hp => exact (h.wakeup b).keep (wakeup_of_ne hp nofun) rfl rfl
  | last hp _ => exact h.keep hp rfl rfl
  | next hp _ _ _ => exact h.aside.keep hp rfl rfl
  | intrRelease hp => exact h.release hp rfl rfl rfl

theorem owner_goto (hl : s.idelock = some p) (x : Pc) : (s.goto p x).owner = x := by
  simp only [St.owner, St.goto, hl, update_self]

theorem owner_goto_of_ne (hl : s.idelock ≠ some p) (x : Pc) : (s.goto p x).owner = s.owner := by
  simp only [St.owner, St.goto]
  cases hq : s.idelock with
  | none => rfl
  | some q =>
    have hqp : q ≠ p := fun he => hl (hq.trans (congrArg some he))
    exact update_of_ne hqp ..

theorem owner_hold (s : St) (p : Pid) (x : Pc) : (s.hold p x).owner = x := by
  simp only [St.owner, St.hold, update_self]

theorem owner_none (hl : s.idelock = none) : s.owner = .idle := by
  rw [St.owner, hl]

theorem Owners.owner_other (h : Owners s) (hp : s.pc p = y) (hy : y.locked = false) (x : Pc) :
    (s.goto p x).owner = s.owner := by
  apply owner_goto_of_ne
  intro hl
  rw [← hp, (h.lock p).1 hl] at hy
  cases hy

end

/-- The buffer that `ideintr` has taken and not completed. -/
def Pc.hand : Pc → List Nat
  | .read b | .mark b => [b]
  | _ => []

/-- What the owner of `idelock` relies on. -/
def Pc.Fits (s : St) (q : List Nat) : Pc → Prop
  | .walk b pp => s.qnext b = none ∧ ∀ y, pp = some y → y ∈ q
  | .start b => ∃ r, q = r ++ [b]
  | .take y => y = true → q = []
  | _ => True

/-- The requests not done are in the queue, in their order. -/
structure Line (s : St) (q : List Nat) : Prop where
  chain : Chain s.qnext s.idequeue q
  reqs : s.reqs = s.dones ++ s.owner.hand ++ q
  fits : s.owner.Fits s q

section
variable {s s' : St} {p : Pid} {q : List Nat}

theorem Line.waiter (h : Line s q) (o : Owners s) (hi : (s.owner.hand ++ q)[i]? = some b) :
    ∃ p, (s.pc p).role = some (.waits, b) ∧ s.mine p = s.dones.length + i := by
  have hget : s.reqs[s.dones.length + i]? = some b := by
    rw [h.reqs, List.append_assoc, List.getElem?_append_right (Nat.le_add_right _ _),
      Nat.add_sub_cancel_left, hi]
  obtain ⟨p, b', hp, hm⟩ := o.pending _ (Nat.le_add_right _ _) (List.getElem?_eq_some_iff.1 hget).1
  have hmine := o.mine p _ b' hp nofun
  rw [hm, hget] at hmine
  cases hmine
  exact ⟨p, hp, hm⟩

theorem Line.nodup (h : Line s q) (o : Owners s) : (s.owner.hand ++ q).Nodup := by
  rw [List.nodup_iff_getElem?_ne_getElem?]
  intro i j hij hj he
  rw [List.getElem?_eq_getElem hj] at he
  obtain ⟨p, hp, hpm⟩ := h.waiter o he
  obtain ⟨r, hr, hrm⟩ := h.waiter o (List.getElem?_eq_getElem hj)
  obtain rfl := o.unique hp hr
  omega

theorem Line.not_asked (h : Line s q) (o : Owners s) (hp : (s.pc p).role = some (.asks, b)) :
    b ∉ s.owner.hand ++ q := by
  intro hb
  obtain ⟨i, hi⟩ := List.getElem?_of_mem hb
  obtain ⟨r, hr, -⟩ := h.waiter o hi
  obtain rfl := o.unique hp hr
  rw [hp] at hr
  cases hr

theorem Line.goto (h : Line s q) (hchain : Chain s'.qnext s'.idequeue q) (hreqs : s'.reqs = s.reqs)
    (hdones : s'.dones ++ s'.owner.hand = s.dones ++ s.owner.hand) (hfits : s'.owner.Fits s' q) :
    Line s' q :=
  ⟨hchain, by rw [hreqs, hdones, h.reqs], hfits⟩

end

end Xv6.Ide
