import Xv6.Ide.Flight

namespace Xv6.Ide
open Lib Function
set_option autoImplicit true

/-- What a request does to the disks and its buffer, all at once. -/
def execute (disk : Bool → Nat → Block) (v : Buf) : (Bool → Nat → Block) × Buf :=
  if v.dirty then
    (update disk (command v).drive
      (update (disk (command v).drive) (command v).sector v.data),
      { v with dirty := false, valid := true })
  else (disk, { v with data := disk (command v).drive (command v).sector, valid := true })

def disksAfter (disk : Bool → Nat → Block) (vs : List Buf) : Bool → Nat → Block :=
  vs.foldl (fun d v => (execute d v).1) disk

namespace St

def before (s : St) (disk : Bool → Nat → Block) (j : Nat) : Bool → Nat → Block :=
  disksAfter disk ((s.log.map Prod.snd).take j)

def executed (s : St) : Nat :=
  s.starts.length - if s.hw.busy.isSome then 1 else 0

end St

/-- The `j`-th request is for buffer `b` and leaves it as `w`. -/
def Outcome (disk : Bool → Nat → Block) (s : St) (j b : Nat) (w : Buf) : Prop :=
  ∃ v, s.log[j]? = some (b, v) ∧ w = (execute (s.before disk j) v).2

def Pc.marked : Pc → Option Nat
  | .mark b => some b
  | _ => none

/-- Disks and buffers are as if the requests were executed in order. -/
structure Content (disk : Bool → Nat → Block) (s : St) : Prop where
  asked : ∀ p b, (s.pc p).role = some (.asks, b) → (s.buf b).synced = false
  unsynced : ∀ (j b : Nat) (v : Buf), s.log[j]? = some (b, v) → v.synced = false
  small : ∀ (j b : Nat) (v : Buf), j < s.starts.length → s.log[j]? = some (b, v) → v.blockno.toNat < fsSize
  busy : ∀ c, s.hw.busy = some c → ∃ b v, s.log[s.dones.length]? = some (b, v) ∧ c = command v
  disks : s.hw.disk = s.before disk s.executed
  data : ∀ (b : Nat) (v : Buf), s.log[s.dones.length]? = some (b, v) → s.dones.length < s.executed →
    v.dirty = false → s.hw.data = s.before disk s.dones.length (command v).drive (command v).sector
  pending : ∀ (j b : Nat) (v : Buf), s.dones.length ≤ j → s.log[j]? = some (b, v) → s.owner.marked ≠ some b →
    s.buf b = v
  marked : ∀ b, s.owner.marked = some b →
    Outcome disk s s.dones.length b { s.buf b with valid := true, dirty := false }
  done : ∀ p st b, (s.pc p).role = some (st, b) → st ≠ .asks → s.mine p < s.dones.length →
    Outcome disk s (s.mine p) b (s.buf b)
  asleep : ∀ p b, s.pc p = .asleep b → s.mine p < s.dones.length → s.owner = .wake b
  returns : ∀ r ∈ s.returns, r.idx < s.dones.length ∧ Outcome disk s r.idx r.buf r.val

theorem execute_synced (disk : Bool → Nat → Block) (v : Buf) : (execute disk v).2.synced = true := by
  rw [execute]
  split
  · rfl
  · next hd =>
    rw [Bool.not_eq_true] at hd
    rw [Buf.synced, hd]
    rfl

theorem Outcome.synced (h : Outcome disk s j b w) : w.synced = true := by
  obtain ⟨v, -, rfl⟩ := h
  exact execute_synced _ v

theorem getElem?_log {s : St} {j b : Nat} (h : s.reqs[j]? = some b) : ∃ v, s.log[j]? = some (b, v) := by
  rw [St.reqs, List.getElem?_map, Option.map_eq_some_iff] at h
  obtain ⟨⟨b', v⟩, hx, rfl⟩ := h
  exact ⟨v, hx⟩

section
variable {disk : Bool → Nat → Block} {s s' : St} {p : Pid} {q : List Nat} {tok : Tok}

theorem Content.sure (c : Content disk s) (o : Owners s) : Sure s := by
  intro p b hp hs
  by_contra hlt
  obtain ⟨v, hv⟩ := getElem?_log (o.mine p .waits b (by rw [hp]; rfl) nofun)
  have hbuf := c.pending _ b v (Nat.le_of_not_lt hlt) hv (by rw [o.owner_eq hp rfl]; nofun)
  rw [hbuf, c.unsynced _ b v hv] at hs
  cases hs

theorem Content.congr (c : Content disk s) (s' : St) (hlog : s'.log = s.log)
    (hdones : s'.dones = s.dones) (hbuf : s'.buf = s.buf) (hmine : s'.mine = s.mine) (hret : s'.returns = s.returns)
    (hstarts : s'.starts = s.starts) (hhw : s'.hw = s.hw)
    (hmarked : s'.owner.marked = s.owner.marked)
    (hask : ∀ p b, (s'.pc p).role = some (.asks, b) → (s.buf b).synced = false)
    (hrole : ∀ p st b, (s'.pc p).role = some (st, b) → st ≠ .asks →
      ∃ st', st' ≠ .asks ∧ (s.pc p).role = some (st', b))
    (hasleep : ∀ p b, s'.pc p = .asleep b → s.mine p < s.dones.length → s'.owner = .wake b) :
    Content disk s' := by
  have hbefore : s'.before disk = s.before disk := by
    funext j
    rw [St.before, St.before, hlog]
  have hout : Outcome disk s' = Outcome disk s := by
    funext j b w
    rw [Outcome, Outcome, hlog, hbefore]
  have hexec : s'.executed = s.executed := by rw [St.executed, St.executed, hstarts, hhw]
  constructor
  · intro p b hp
    rw [hbuf]
    exact hask p b hp
  · rw [hlog]
    exact c.unsynced
  · rw [hlog, hstarts]
    exact c.small
  · rw [hlog, hhw, hdones]
    exact c.busy
  · rw [hhw, hbefore, hexec]
    exact c.disks
  · rw [hlog, hdones, hexec, hhw, hbefore]
    exact c.data
  · rw [hlog, hdones, hmarked, hbuf]
    exact c.pending
  · rw [hmarked, hout, hdones, hbuf]
    exact c.marked
  · intro p st b hp hst hlt
    obtain ⟨st', hst', hp'⟩ := hrole p st b hp hst
    rw [hmine, hdones] at hlt
    rw [hout, hmine, hbuf]
    exact c.done p st' b hp' hst' hlt
  · intro p b hp hlt
    rw [hmine, hdones] at hlt
    exact hasleep p b hp hlt
  · rw [hret, hdones, hout]
    exact c.returns

theorem Content.other (c : Content disk s) (o : Owners s) (hp : s.pc p = y)
    (hl : y.locked = false)
    (hrole : ∀ st b, x.role = some (st, b) → (st = .asks → (s.buf b).synced = false) ∧
      (st ≠ .asks → y.role = some (st, b)))
    (hx : ∀ b, x ≠ .asleep b) : Content disk (s.goto p x) := by
  have hown := o.owner_other hp hl x
  subst hp
  refine c.congr (s.goto p x) rfl rfl rfl rfl rfl rfl rfl (by rw [hown]) ?_ ?_ ?_
  · intro r b hr
    rcases update_cases (P := fun y => Pc.role y = some (.asks, b)) hr with ⟨rfl, hy⟩ | ⟨-, hy⟩
    · exact (hrole _ b hy).1 rfl
    · exact c.asked r b hy
  · intro r st b hr hst
    rcases update_cases (P := fun y => Pc.role y = some (st, b)) hr with ⟨rfl, hy⟩ | ⟨-, hy⟩
    · exact ⟨st, hst, (hrole st b hy).2 hst⟩
    · exact ⟨st, hst, hy⟩
  · intro r b hr hlt
    rw [hown]
    rcases update_cases (P := fun y => y = Pc.asleep b) hr with ⟨-, hy⟩ | ⟨-, hy⟩
    · exact absurd hy (hx b)
    · exact c.asleep r b hy hlt

theorem Content.move (c : Content disk s) (s' : St) (p : Pid) (x : Pc)
    (hlog : s'.log = s.log) (hdones : s'.dones = s.dones)
    (hbuf : s'.buf = s.buf) (hmine : s'.mine = s.mine) (hret : s'.returns = s.returns)
    (hstarts : s'.starts = s.starts) (hhw : s'.hw = s.hw)
    (hpc : s'.pc = update s.pc p x)
    (hmarked : s'.owner.marked = s.owner.marked)
    (hrole : ∀ st b, x.role = some (st, b) →
      ∃ st', (st = .asks ↔ st' = .asks) ∧ (s.pc p).role = some (st', b))
    (hwake : ∀ b, s.owner ≠ .wake b)
    (hx : ∀ b, x = .asleep b → s.dones.length ≤ s.mine p) : Content disk s' := by
  refine c.congr s' hlog hdones hbuf hmine hret hstarts hhw hmarked ?_ ?_ ?_
  · intro r b hr
    rw [hpc] at hr
    rcases update_cases (P := fun y => Pc.role y = some (.asks, b)) hr with ⟨rfl, hy⟩ | ⟨-, hy⟩
    · obtain ⟨st', hst', hp⟩ := hrole _ b hy
      rw [hst'.1 rfl] at hp
      exact c.asked _ b hp
    · exact c.asked r b hy
  · intro r st b hr hst
    rw [hpc] at hr
    rcases update_cases (P := fun y => Pc.role y = some (st, b)) hr with ⟨rfl, hy⟩ | ⟨-, hy⟩
    · obtain ⟨st', hst', hp⟩ := hrole st b hy
      exact ⟨st', fun he => hst (hst'.2 he), hp⟩
    · exact ⟨st, hst, hy⟩
  · intro r b hr hlt
    rw [hpc] at hr
    rcases update_cases (P := fun y => y = Pc.asleep b) hr with ⟨rfl, hy⟩ | ⟨-, hy⟩
    · exact absurd hlt (Nat.not_lt.2 (hx b hy))
    · exact absurd (c.asleep r b hy hlt) (hwake b)

theorem Content.hold (c : Content disk s) (hl : s.idelock = none) (hp : s.pc p = y)
    (hhand : x.marked = none) (hrole : x.role = y.role) (hx : ∀ b, x ≠ .asleep b) :
    Content disk ({ s with qnext := g }.hold p x) := by
  subst hp
  have hown := owner_hold { s with qnext := g } p x
  have hnone := owner_none hl
  refine c.move ({ s with qnext := g }.hold p x) p x rfl rfl rfl rfl rfl rfl rfl
    rfl ?_ ?_ ?_ ?_
  · rw [hown, hnone, hhand]
    rfl
  · intro st b hr
    exact ⟨st, Iff.rfl, by rw [← hrole, hr]⟩
  · intro b
    rw [hnone]
    nofun
  · intro b he
    exact absurd he (hx b)

theorem Content.own (c : Content disk s) (o : Owners s) (hp : s.pc p = y) (hy : y.locked = true)
    (hhand : x.marked = y.marked) (hwake : ∀ b, y ≠ .wake b)
    (hrole : ∀ st b, x.role = some (st, b) →
      ∃ st', (st = .asks ↔ st' = .asks) ∧ y.role = some (st', b))
    (hx : ∀ b, x ≠ .asleep b) : Content disk ({ s with idequeue := l }.goto p x) := by
  have hown : ({ s with idequeue := l }.goto p x).owner = x :=
    owner_goto (s := { s with idequeue := l }) (o.idelock_eq hp hy) x
  have hfrom := o.owner_eq hp hy
  subst hp
  refine c.move ({ s with idequeue := l }.goto p x) p x rfl rfl rfl rfl rfl rfl
    rfl rfl ?_ hrole ?_ ?_
  · rw [hown, hfrom, hhand]
  · intro b
    rw [hfrom]
    exact hwake b
  · intro b he
    exact absurd he (hx b)

theorem Content.release (c : Content disk s) (o : Owners s) (hp : s.pc p = y)
    (hy : y.locked = true) (hhand : y.marked = none) (hwake : ∀ b, y ≠ .wake b)
    (hrole : x.role = y.role ∨ x.role = none)
    (hx : ∀ b, x = .asleep b → s.dones.length ≤ s.mine p) : Content disk (s.release p x) := by
  have hfrom := o.owner_eq hp hy
  subst hp
  refine c.move (s.release p x) p x rfl rfl rfl rfl rfl rfl rfl rfl ?_ ?_ ?_ hx
  · rw [hfrom, hhand]
    rfl
  · intro st b hr
    rcases hrole with he | he
    · exact ⟨st, Iff.rfl, by rw [← he, hr]⟩
    · cases he.symm.trans hr
  · intro b
    rw [hfrom]
    exact hwake b

theorem Owners.waiter (o : Owners s) (hj : s.dones.length ≤ j) (hl : s.log[j]? = some (b, v)) :
    ∃ p, (s.pc p).role = some (.waits, b) ∧ s.mine p = j := by
  have hget : s.reqs[j]? = some b := by
    rw [St.reqs, List.getElem?_map, hl]
    rfl
  obtain ⟨p, b', hp, hm⟩ := o.pending j hj (List.getElem?_eq_some_iff.1 hget).1
  have hmine := o.mine p _ b' hp nofun
  rw [hm, hget] at hmine
  cases hmine
  exact ⟨p, hp, hm⟩

theorem Owners.pending_ne (o : Owners s) (hi : s.dones.length ≤ i) (hj : s.dones.length ≤ j)
    (hli : s.log[i]? = some (b, v)) (hlj : s.log[j]? = some (b, w)) : i = j := by
  obtain ⟨p, hp, hpm⟩ := o.waiter hi hli
  obtain ⟨r, hr, hrm⟩ := o.waiter hj hlj
  obtain rfl := o.unique hp hr
  omega

theorem Content.setBuf (c : Content disk s) (o : Owners s)
    (hb : ∀ p st b', (s.pc p).role = some (st, b') → b' ≠ b) (w : Buf) :
    Content disk (s.setBuf b w) := by
  have hne (r : Pid) (st : Stage) (b' : Nat) (hr : (s.pc r).role = some (st, b')) :
      (s.setBuf b w).buf b' = s.buf b' :=
    update_of_ne (hb r st b' hr) ..
  refine ⟨?_, c.unsynced, c.small, c.busy, c.disks, c.data, ?_, ?_, ?_, c.asleep, c.returns⟩
  · intro r b' hr
    rw [hne r _ b' hr]
    exact c.asked r b' hr
  · intro j b' v hj hl hm
    obtain ⟨r, hr, -⟩ := o.waiter hj hl
    rw [hne r _ b' hr]
    exact c.pending j b' v hj hl hm
  · intro b' hm
    have hout := c.marked b' hm
    obtain ⟨v, hl, -⟩ := id hout
    obtain ⟨r, hr, -⟩ := o.waiter (Nat.le_refl _) hl
    rw [hne r _ b' hr]
    exact hout
  · intro r st b' hr hst hlt
    rw [hne r st b' hr]
    exact c.done r st b' hr hst hlt

theorem before_succ (disk : Bool → Nat → Block) (hl : s.log[j]? = some (b, v)) :
    s.before disk (j + 1) = (execute (s.before disk j) v).1 := by
  have hget : (s.log.map Prod.snd)[j]? = some v := by
    rw [List.getElem?_map, hl]
    rfl
  rw [St.before, disksAfter, List.take_add_one, hget, List.foldl_append]
  rfl

theorem Flight.hand_nil (h : Flight s q tok) (ht : tok ≠ .idle) : s.owner.hand = [] := by
  have ha := h.active.1 ht
  cases hc : s.owner with
  | read b =>
    rw [hc] at ha
    exact ha.elim
  | mark b =>
    rw [hc] at ha
    exact ha.elim
  | _ => rfl

theorem length_log (s : St) : s.log.length = s.reqs.length :=
  (List.length_map _).symm

theorem Flight.log_next (h : Flight s q tok) (hb : (s.owner.hand ++ q).head? = some b) :
    ∃ v, s.log[s.dones.length]? = some (b, v) := by
  apply getElem?_log
  rw [h.reqs, List.append_assoc, List.getElem?_append_right (Nat.le_refl _), Nat.sub_self,
    ← List.head?_eq_getElem?, hb]

theorem Flight.starts_le (h : Flight s q tok) : s.starts.length ≤ s.log.length := by
  rw [length_log, h.reqs, h.starts, @List.length_append _ _ q, List.length_append]
  apply Nat.add_le_add_left
  cases tok with
  | idle => exact Nat.zero_le _
  | _ => exact List.length_take_le' 1 q

theorem Flight.starts_length (h : Flight s q tok) (ht : tok ≠ .idle)
    (hl : s.dones.length < s.log.length) : s.starts.length = s.dones.length + 1 := by
  have hreqs := congrArg List.length h.reqs
  rw [h.hand_nil ht, ← length_log, List.append_nil, List.length_append] at hreqs
  have hq : 0 < q.length := by omega
  have hbegun : tok.begun q = q.take 1 := by
    cases tok with
    | idle => exact absurd rfl ht
    | _ => rfl
  rw [h.starts, h.hand_nil ht, List.append_nil, List.length_append, hbegun, List.length_take]
  omega

theorem Content.complete (c : Content disk s) (h : Flight s q tok) (hc : s.hw.busy = some d) :
    Content disk { s with hw := s.hw.complete d } := by
  obtain ⟨b, v, hl, rfl⟩ := c.busy d hc
  have htok : tok ≠ .idle := by
    intro ht
    have hb := h.busy.1 (by rw [hc]; rfl)
    rw [ht] at hb
    cases hb
  have hlen := h.starts_length htok (List.getElem?_eq_some_iff.1 hl).1
  have hexec : s.executed = s.dones.length := by
    rw [St.executed, hlen, hc]
    rfl
  have hbusy : (s.hw.complete (command v)).busy = none := by
    rw [Hw.complete]
    split <;> rfl
  have hexec' : ({ s with hw := s.hw.complete (command v) } : St).executed = s.dones.length + 1 := by
    show s.starts.length - (if (s.hw.complete (command v)).busy.isSome then 1 else 0) = _
    rw [hbusy, hlen]
    rfl
  have hdisks := c.disks
  rw [hexec] at hdisks
  refine ⟨c.asked, c.unsynced, c.small, ?_, ?_, ?_, c.pending, c.marked, c.done, c.asleep,
    c.returns⟩
  · intro d hd
    cases hbusy.symm.trans hd
  · rw [hexec']
    show (s.hw.complete (command v)).disk = s.before disk (s.dones.length + 1)
    rw [before_succ disk hl, ← hdisks, execute, Hw.complete, command]
    cases v.dirty <;> rfl
  · intro b' v' hl' _ hd
    cases hl.symm.trans hl'
    show (s.hw.complete (command v)).data = s.before disk s.dones.length _ _
    rw [← hdisks, Hw.complete, command, hd]
    rfl

theorem Content.issue (c : Content disk s) (h : Flight s (b :: q) .idle) (hhand : s.owner.hand = [])
    (hn : (s.buf b).blockno.toNat < fsSize) (hb : s.hw.busy = none) : Content disk (s.issue b) := by
  obtain ⟨v, hl⟩ := h.log_next (b := b) (by rw [hhand]; rfl)
  have hmark : s.owner.marked = none := by
    cases hc : s.owner with
    | mark b' =>
      rw [hc] at hhand
      cases hhand
    | _ => rfl
  have hbuf : s.buf b = v := c.pending _ b v (Nat.le_refl _) hl (by rw [hmark]; nofun)
  have hlen : s.starts.length = s.dones.length := by
    rw [h.starts, hhand, List.append_nil]
    exact congrArg List.length (List.append_nil s.dones)
  have hexec : (s.issue b).executed = s.executed := by
    rw [St.executed, St.executed, hb]
    exact congrArg (· - 1) List.length_append
  refine ⟨c.asked, c.unsynced, ?_, ?_, ?_, ?_, c.pending, c.marked, c.done, c.asleep, c.returns⟩
  · intro j b' v' hj hl'
    have hj' : j < s.starts.length + 1 := by
      rw [← List.length_singleton (a := b), ← List.length_append]
      exact hj
    rcases Nat.lt_succ_iff_lt_or_eq.1 hj' with hlt | rfl
    · exact c.small j b' v' hlt hl'
    · rw [hlen] at hl'
      cases hl.symm.trans hl'
      rw [← hbuf]
      exact hn
  · intro d hd
    refine ⟨b, v, hl, ?_⟩
    rw [← hbuf]
    exact (Option.some.inj hd).symm
  · rw [hexec]
    exact c.disks
  · rw [hexec]
    exact c.data

theorem take_log (s : St) (x : Nat × Buf) (hj : j ≤ s.log.length) :
    ((s.log ++ [x]).map Prod.snd).take j = (s.log.map Prod.snd).take j := by
  rw [List.map_append, List.take_append_of_le_length]
  rw [List.length_map]
  exact hj

theorem Content.append (c : Content disk s) (h : Flight s q tok) (o : Owners s)
    (hp : s.pc p = .walk b pp) :
    Content disk (((s.store b pp).record p b).goto p (.start b)) := by
  have hfrom := o.owner_eq hp rfl
  obtain ⟨g, l, he⟩ := store_frame s b pp
  rw [he]
  have hown : (({ s with qnext := g, idequeue := l }.record p b).goto p (.start b)).owner = .start b :=
    owner_goto (s := { s with qnext := g, idequeue := l }.record p b) (o.idelock_eq hp rfl) _
  generalize hs' : ({ s with qnext := g, idequeue := l }.record p b).goto p (.start b) = s' at hown
  obtain ⟨hlog, hdones, hbuf, hmine, hret, hstarts, hhw, hpc⟩ : s'.log = s.log ++ [(b, s.buf b)] ∧
      s'.dones = s.dones ∧ s'.buf = s.buf ∧ s'.mine = update s.mine p s.log.length ∧
      s'.returns = s.returns ∧ s'.starts = s.starts ∧ s'.hw = s.hw ∧
      s'.pc = update s.pc p (.start b) := by
    rw [← hs']
    exact ⟨rfl, rfl, rfl, rfl, rfl, rfl, rfl, rfl⟩
  have hdle : s.dones.length ≤ s.log.length := by
    rw [length_log, h.reqs, List.append_assoc, List.length_append]
    exact Nat.le_add_right _ _
  have hbefore (j : Nat) (hj : j ≤ s.log.length) : s'.before disk j = s.before disk j := by
    rw [St.before, St.before, hlog, take_log s _ hj]
  have hexec : s'.executed = s.executed := by rw [St.executed, St.executed, hstarts, hhw]
  have hexec_le : s.executed ≤ s.log.length := Nat.le_trans (Nat.sub_le _ _) h.starts_le
  have hcases (j b' : Nat) (v : Buf) (hl : s'.log[j]? = some (b', v)) :
      s.log[j]? = some (b', v) ∨ j = s.log.length ∧ b' = b ∧ v = s.buf b := by
    rw [hlog] at hl
    rcases Nat.lt_trichotomy j s.log.length with hlt | rfl | hlt
    · rw [List.getElem?_append_left hlt] at hl
      exact .inl hl
    · rw [List.getElem?_concat_length] at hl
      cases hl
      exact .inr ⟨rfl, rfl, rfl⟩
    · rw [List.getElem?_eq_none (by rw [List.length_append, List.length_singleton]; omega)] at hl
      cases hl
  have hout (j b' : Nat) (w : Buf) (hw : Outcome disk s j b' w) : Outcome disk s' j b' w := by
    obtain ⟨v, hl, rfl⟩ := hw
    have hlt := (List.getElem?_eq_some_iff.1 hl).1
    refine ⟨v, ?_, ?_⟩
    · rw [hlog, List.getElem?_append_left hlt, hl]
    · rw [hbefore j (Nat.le_of_lt hlt)]
  constructor
  · intro r b' hr
    rw [hpc] at hr
    rw [hbuf]
    rcases update_cases (P := fun y => Pc.role y = some (.asks, b')) hr with ⟨-, hy⟩ | ⟨-, hy⟩
    · cases hy
    · exact c.asked r b' hy
  · intro j b' v hl
    rcases hcases j b' v hl with hl | ⟨-, rfl, rfl⟩
    · exact c.unsynced j b' v hl
    · exact c.asked p _ (by rw [hp]; rfl)
  · intro j b' v hj hl
    rw [hstarts] at hj
    rcases hcases j b' v hl with hl | ⟨rfl, -⟩
    · exact c.small j b' v hj hl
    · exact absurd h.starts_le (Nat.not_le.2 hj)
  · intro d hd
    rw [hhw] at hd
    obtain ⟨b', v, hl, hv⟩ := c.busy d hd
    refine ⟨b', v, ?_, hv⟩
    rw [hlog, hdones, List.getElem?_append_left (List.getElem?_eq_some_iff.1 hl).1, hl]
  · rw [hhw, hexec, hbefore _ hexec_le]
    exact c.disks
  · intro b' v hl hlt hd
    rw [hdones] at hl hlt
    rw [hexec] at hlt
    rw [hhw, hdones, hbefore _ hdle]
    rcases hcases _ b' v hl with hl | ⟨he, -⟩
    · exact c.data b' v hl hlt hd
    · omega
  · intro j b' v hj hl _
    rw [hdones] at hj
    rw [hbuf]
    rcases hcases j b' v hl with hl | ⟨-, rfl, rfl⟩
    · exact c.pending j b' v hj hl (by rw [hfrom]; nofun)
    · rfl
  · intro b' hm
    rw [hown] at hm
    cases hm
  · intro r st b' hr hst hlt
    rw [hdones, hmine] at hlt
    rw [hpc] at hr
    rw [hmine, hbuf]
    rcases update_cases (P := fun y => Pc.role y = some (st, b')) hr with ⟨rfl, -⟩ | ⟨hne, hy⟩
    · rw [update_self] at hlt
      exact absurd hdle (Nat.not_le.2 hlt)
    · rw [update_of_ne hne] at hlt ⊢
      exact hout _ b' _ (c.done r st b' hy hst hlt)
  · intro r b' hr hlt
    rw [hdones, hmine] at hlt
    rw [hpc] at hr
    rcases update_cases (P := fun y => y = Pc.asleep b') hr with ⟨-, hy⟩ | ⟨hne, hy⟩
    · cases hy
    · rw [update_of_ne hne] at hlt
      have hw := c.asleep r b' hy hlt
      rw [hfrom] at hw
      cases hw
  · intro r hr
    rw [hret] at hr
    rw [hdones]
    exact ⟨(c.returns r hr).1, hout _ _ _ (c.returns r hr).2⟩

theorem Content.ret (c : Content disk s) (o : Owners s) (hp : s.pc p = .release b) :
    Content disk ((s.returned p b).release p .idle) := by
  have hrole : (s.pc p).role = some (.leaves, b) := by
    rw [hp]
    rfl
  have hlt := o.done p b hrole
  have hout := c.done p _ b hrole nofun hlt
  have hreturns : Content disk (s.returned p b) := by
    refine ⟨c.asked, c.unsynced, c.small, c.busy, c.disks, c.data, c.pending, c.marked, c.done,
      c.asleep, ?_⟩
    intro r hr
    rcases List.mem_append.1 hr with hr | hr
    · exact c.returns r hr
    · obtain rfl := List.mem_singleton.1 hr
      exact ⟨hlt, hout⟩
  have hown : Owners (s.returned p b) := ⟨o.lock, o.holder, o.mine, o.pending, o.done⟩
  exact hreturns.release hown hp rfl rfl nofun (.inr rfl) nofun

theorem Content.read (c : Content disk s) (h : Flight s q tok) (o : Owners s)
    (hp : s.pc p = .read b)
    (hw : ∀ v, s.log[s.dones.length]? = some (b, v) → s.buf b = v →
      { w with valid := true, dirty := false } = (execute (s.before disk s.dones.length) v).2) :
    Content disk ((s.setBuf b w).goto p (.mark b)) := by
  have hfrom := o.owner_eq hp rfl
  have hown : ((s.setBuf b w).goto p (.mark b)).owner = .mark b :=
    owner_goto (s := s.setBuf b w) (o.idelock_eq hp rfl) _
  obtain ⟨v, hl⟩ := h.log_next (b := b) (by rw [hfrom]; rfl)
  have hbuf : s.buf b = v := c.pending _ b v (Nat.le_refl _) hl (by rw [hfrom]; nofun)
  obtain ⟨r₀, hr₀, hm₀⟩ := o.waiter (Nat.le_refl _) hl
  have hne (b' : Nat) (hb : b' ≠ b) : ((s.setBuf b w).goto p (.mark b)).buf b' = s.buf b' :=
    update_of_ne hb ..
  have hrole (r : Pid) (st : Stage) (b' : Nat)
      (hr : (((s.setBuf b w).goto p (.mark b)).pc r).role = some (st, b')) :
      (s.pc r).role = some (st, b') := by
    rcases update_cases (P := fun y => Pc.role y = some (st, b')) hr with ⟨-, hy⟩ | ⟨-, hy⟩
    · cases hy
    · exact hy
  refine ⟨?_, c.unsynced, c.small, c.busy, c.disks, c.data, ?_, ?_, ?_, ?_, c.returns⟩
  · intro r b' hr
    have hr' := hrole r _ b' hr
    have hb : b' ≠ b := by
      rintro rfl
      obtain rfl := o.unique hr' hr₀
      rw [hr₀] at hr'
      cases hr'
    rw [hne b' hb]
    exact c.asked r b' hr'
  · intro j b' v' hj hl' hm
    rw [hown] at hm
    have hb : b' ≠ b := fun he => hm (congrArg some he.symm)
    rw [hne b' hb]
    exact c.pending j b' v' hj hl' (by rw [hfrom]; nofun)
  · intro b' hm
    rw [hown] at hm
    cases hm
    refine ⟨v, hl, ?_⟩
    show ({ update s.buf b w b with valid := true, dirty := false } : Buf) =
      (execute (s.before disk s.dones.length) v).2
    rw [update_self]
    exact hw v hl hbuf
  · intro r st b' hr hst hlt
    have hr' := hrole r st b' hr
    have hb : b' ≠ b := by
      rintro rfl
      obtain rfl := o.unique hr' hr₀
      exact absurd hm₀ (Nat.ne_of_lt hlt)
    rw [hne b' hb]
    exact c.done r st b' hr' hst hlt
  · intro r b' hr hlt
    rcases update_cases (P := fun y => y = Pc.asleep b') hr with ⟨-, hy⟩ | ⟨-, hy⟩
    · cases hy
    · have hw := c.asleep r b' hy hlt
      rw [hfrom] at hw
      cases hw

theorem Content.written (c : Content disk s) (h : Flight s q tok) (o : Owners s)
    (hp : s.pc p = .read b) (hd : (s.buf b).dirty = true) : Content disk (s.goto p (.mark b)) := by
  have hself : s.setBuf b (s.buf b) = s := by
    rw [St.setBuf, update_eq_self]
  have hread := c.read h o hp (w := s.buf b) (fun v _ hv => ?_)
  · rw [hself] at hread
    exact hread
  · rw [hv] at hd ⊢
    rw [execute, hd]
    rfl

theorem Content.insl (c : Content disk s) (h : Flight s q tok) (o : Owners s)
    (hp : s.pc p = .read b) (hd : (s.buf b).dirty = false) :
    Content disk ((s.setBuf b { s.buf b with data := s.hw.data }).goto p (.mark b)) := by
  refine c.read h o hp fun v hl hv => ?_
  have hfrom := o.owner_eq hp rfl
  have htok : tok = .idle := by
    apply h.idle
    rw [hfrom]
    exact id
  have hbusy : s.hw.busy.isSome = false := by
    rw [Bool.eq_false_iff]
    intro hb
    have ht := h.busy.1 hb
    rw [htok] at ht
    cases ht
  have hexec : s.executed = s.dones.length + 1 := by
    rw [St.executed, hbusy, h.starts, hfrom, htok]
    exact congrArg List.length (List.append_nil (s.dones ++ [b])) |>.trans List.length_append
  rw [hv] at hd ⊢
  have hdata := c.data b v hl (by rw [hexec]; exact Nat.lt_succ_self _) hd
  rw [hdata, execute, hd]
  rfl

theorem Content.mark (c : Content disk s) (h : Flight s q tok) (o : Owners s)
    (hp : s.pc p = .mark b) : Content disk ((s.finish b).goto p (.wake b)) := by
  have hfrom := o.owner_eq hp rfl
  have hown : ((s.finish b).goto p (.wake b)).owner = .wake b :=
    owner_goto (s := s.finish b) (o.idelock_eq hp rfl) _
  have hmarked : Outcome disk s s.dones.length b { s.buf b with valid := true, dirty := false } :=
    c.marked b (by rw [hfrom]; rfl)
  obtain ⟨v, hl, -⟩ := id hmarked
  obtain ⟨r₀, hr₀, hm₀⟩ := o.waiter (Nat.le_refl _) hl
  have hdones : ((s.finish b).goto p (.wake b)).dones.length = s.dones.length + 1 :=
    List.length_append
  have htok : tok = .idle := by
    apply h.idle
    rw [hfrom]
    exact id
  have hbusy : s.hw.busy = none := by
    rw [← Option.not_isSome_iff_eq_none]
    intro hb
    have ht := h.busy.1 hb
    rw [htok] at ht
    cases ht
  have hexec : s.executed ≤ s.dones.length + 1 := by
    refine Nat.le_trans (Nat.sub_le _ _) ?_
    rw [h.starts, hfrom, htok]
    exact Nat.le_of_eq (congrArg List.length (List.append_nil (s.dones ++ [b])) |>.trans
      List.length_append)
  have hself : ((s.finish b).goto p (.wake b)).buf b =
      { s.buf b with valid := true, dirty := false } :=
    update_self ..
  have hne (b' : Nat) (hb : b' ≠ b) : ((s.finish b).goto p (.wake b)).buf b' = s.buf b' :=
    update_of_ne hb ..
  have hrole (r : Pid) (st : Stage) (b' : Nat)
      (hr : (((s.finish b).goto p (.wake b)).pc r).role = some (st, b')) :
      (s.pc r).role = some (st, b') := by
    rcases update_cases (P := fun y => Pc.role y = some (st, b')) hr with ⟨-, hy⟩ | ⟨-, hy⟩
    · cases hy
    · exact hy
  have hmine (r : Pid) (st : Stage) (b' : Nat) (hr : (s.pc r).role = some (st, b')) (hst : st ≠ .asks)
      (hm : s.mine r = s.dones.length) : b' = b := by
    obtain ⟨w, hw⟩ := getElem?_log (o.mine r st b' hr hst)
    rw [hm, hl] at hw
    cases hw
    rfl
  refine ⟨?_, c.unsynced, c.small, ?_, c.disks, ?_, ?_, ?_, ?_, ?_, ?_⟩
  · intro r b' hr
    have hr' := hrole r _ b' hr
    have hb : b' ≠ b := by
      rintro rfl
      obtain rfl := o.unique hr' hr₀
      rw [hr₀] at hr'
      cases hr'
    rw [hne b' hb]
    exact c.asked r b' hr'
  · intro d hd
    cases hbusy.symm.trans hd
  · intro b' v' _ hlt _
    rw [hdones] at hlt
    exact absurd hexec (Nat.not_le.2 hlt)
  · intro j b' v' hj hl' _
    rw [hdones] at hj
    have hb : b' ≠ b := by
      rintro rfl
      have he := o.pending_ne (Nat.le_refl _) (Nat.le_of_succ_le hj) hl hl'
      omega
    rw [hne b' hb]
    refine c.pending j b' v' (Nat.le_of_succ_le hj) hl' ?_
    rw [hfrom]
    exact fun he => hb (Option.some.inj he).symm
  · intro b' hm
    rw [hown] at hm
    cases hm
  · intro r st b' hr hst hlt
    have hr' := hrole r st b' hr
    have hle : s.mine r < s.dones.length + 1 := by
      rw [← hdones]
      exact hlt
    rcases Nat.lt_succ_iff_lt_or_eq.1 hle with hlt | hm
    · have hb : b' ≠ b := by
        intro he
        rw [he] at hr'
        obtain rfl := o.unique hr' hr₀
        omega
      rw [hne b' hb]
      exact c.done r st b' hr' hst hlt
    · obtain rfl := hmine r st b' hr' hst hm
      rw [hself]
      show Outcome disk s (s.mine r) b' _
      rw [hm]
      exact hmarked
  · intro r b' hr hlt
    rw [hown]
    have hle : s.mine r < s.dones.length + 1 := by
      rw [← hdones]
      exact hlt
    rcases update_cases (P := fun y => y = Pc.asleep b') hr with ⟨-, hy⟩ | ⟨-, hy⟩
    · cases hy
    · have hrole' : (s.pc r).role = some (.waits, b') := congrArg Pc.role hy
      rcases Nat.lt_succ_iff_lt_or_eq.1 hle with hlt | hm
      · have hw := c.asleep r b' hy hlt
        rw [hfrom] at hw
        cases hw
      · rw [hmine r .waits b' hrole' nofun hm]
  · intro r hr
    rw [hdones]
    exact ⟨Nat.lt_succ_of_lt (c.returns r hr).1, (c.returns r hr).2⟩

theorem Content.wake (c : Content disk s) (o : Owners s) (hp : s.pc p = .wake b) :
    Content disk ((s.wakeup b).goto p .next) := by
  have hfrom := o.owner_eq hp rfl
  have hown : ((s.wakeup b).goto p .next).owner = .next :=
    owner_goto (s := s.wakeup b) (o.idelock_eq hp rfl) _
  have hrole (r : Pid) (st : Stage) (b' : Nat)
      (hr : (((s.wakeup b).goto p .next).pc r).role = some (st, b')) :
      (s.pc r).role = some (st, b') := by
    rcases update_cases (P := fun y => Pc.role y = some (st, b')) hr with ⟨-, hy⟩ | ⟨-, hy⟩
    · cases hy
    · rw [← (role_wakeup s b r).1]
      exact hy
  refine c.congr _ rfl rfl rfl rfl rfl rfl rfl ?_ ?_ ?_ ?_
  · rw [hown, hfrom]
    rfl
  · intro r b' hr
    exact c.asked r b' (hrole r _ b' hr)
  · intro r st b' hr hst
    exact ⟨st, hst, hrole r st b' hr⟩
  · intro r b' hr hlt
    rcases update_cases (P := fun y => y = Pc.asleep b') hr with ⟨-, hy⟩ | ⟨-, hy⟩
    · cases hy
    · simp only [St.wakeup] at hy
      split at hy
      · cases hy
      · next hne =>
        have hw := c.asleep r b' hy hlt
        rw [hfrom] at hw
        cases hw
        exact absurd hy hne

theorem Content.sleep (c : Content disk s) (o : Owners s) (hp : s.pc p = .test b)
    (hs : (s.buf b).synced = false) : Content disk (s.release p (.asleep b)) := by
  refine c.release o hp rfl rfl nofun (.inl rfl) ?_
  intro _ _
  by_contra hlt
  have hout := c.done p .waits b (by rw [hp]; rfl) nofun (Nat.lt_of_not_le hlt)
  rw [hout.synced] at hs
  cases hs

theorem Content.step (c : Content disk s) (h : Flight s q tok) (o : Owners s) (hm : Move s s') :
    Content disk s' := by
  cases hm with
  | lock _ => exact ⟨c.asked, c.unsynced, c.small, c.busy, c.disks, c.data, c.pending, c.marked,
      c.done, c.asleep, c.returns⟩
  | @modify p b v hp hb =>
    refine c.setBuf o ?_ v
    rintro r st b' hr rfl
    obtain rfl := Option.some.inj (hb.symm.trans (o.holder r st _ hr))
    rw [hp] at hr
    cases hr
  | unlock _ _ => exact ⟨c.asked, c.unsynced, c.small, c.busy, c.disks, c.data, c.pending, c.marked,
      c.done, c.asleep, c.returns⟩
  | iderw hp _ hs =>
    refine c.other o hp rfl ?_ nofun
    rintro st b' ⟨⟩
    exact ⟨fun _ => hs, fun hst => absurd rfl hst⟩
  | awake hp =>
    refine c.other o hp rfl ?_ nofun
    rintro st b' ⟨⟩
    exact ⟨nofun, fun _ => rfl⟩
  | disk hc => exact c.complete h hc
  | intr hp _ =>
    have hirqs : Content disk { s with hw := { s.hw with irqs := s.hw.irqs - 1 } } :=
      ⟨c.asked, c.unsynced, c.small, c.busy, c.disks, c.data, c.pending, c.marked, c.done, c.asleep,
        c.returns⟩
    exact hirqs.other o.aside hp rfl nofun nofun
  | spurious hp => exact c.other o hp rfl nofun nofun
  | acquire hp hl => exact c.hold hl hp rfl rfl nofun
  | walk hp _ =>
    refine c.own o hp rfl rfl nofun ?_ nofun
    rintro st b' ⟨⟩
    exact ⟨_, Iff.rfl, rfl⟩
  | append hp _ => exact c.append h o hp
  | @start p b hp hq hn hb =>
    obtain rfl := h.start_eq o hp hq
    have hfrom := o.owner_eq hp rfl
    have htok : tok = .idle := by
      apply h.idle
      rw [hfrom]
      exact fun hne => hne rfl
    subst htok
    have hissue := c.issue h (by rw [hfrom]; rfl) hn hb
    refine hissue.own o.aside hp rfl rfl nofun ?_ nofun
    rintro st b' ⟨⟩
    exact ⟨_, Iff.rfl, rfl⟩
  | queued hp _ =>
    refine c.own o hp rfl rfl nofun ?_ nofun
    rintro st b' ⟨⟩
    exact ⟨_, Iff.rfl, rfl⟩
  | sleep hp hs => exact c.sleep o hp hs
  | synced hp _ =>
    refine c.own o hp rfl rfl nofun ?_ nofun
    rintro st b' ⟨⟩
    exact ⟨.waits, ⟨nofun, nofun⟩, rfl⟩
  | reacquire hp hl => exact c.hold hl hp rfl rfl nofun
  | ret hp => exact c.ret o hp
  | intrAcquire hp hl _ => exact c.hold hl hp rfl rfl nofun
  | empty hp _ => exact c.own o hp rfl rfl nofun nofun nofun
  | take hp _ => exact c.own o hp rfl rfl nofun nofun nofun
  | written hp hd => exact c.written h o hp hd
  | insl hp hd => exact c.insl h o hp hd
  | mark hp => exact c.mark h o hp
  | wake hp => exact c.wake o hp
  | last hp _ => exact c.own o hp rfl rfl nofun nofun nofun
  | @next p b hp hq hn hb =>
    obtain ⟨r, rfl⟩ := h.head_eq hq
    have hfrom := o.owner_eq hp rfl
    have htok : tok = .idle := by
      apply h.idle
      rw [hfrom]
      exact id
    subst htok
    have hissue := c.issue h (by rw [hfrom]; rfl) hn hb
    exact hissue.own o.aside hp rfl rfl nofun nofun nofun
  | intrRelease hp => exact c.release o hp rfl rfl nofun (.inr rfl) nofun

end

end Xv6.Ide
