import Xv6.Lib.Exec
import Xv6.Lib.Tracks
import Xv6.Log.Machine

namespace Xv6.Log
open Lib Function
set_option autoImplicit true

def Pc.holdsLog : Pc → Bool
  | .beginTest | .sleepAcquire | .sleepRelease | .beginRelease | .writeBody _ | .writeRelease
  | .endBody | .endWakeup | .endRelease _ | .doneBody | .doneWakeup | .doneRelease => true
  | _ => false

def Pc.holdsPtable : Pc → Bool
  | .sleepRelease | .sleepSched => true
  | _ => false

def Pc.counted : Pc → Bool
  | .beginRelease | .inOp | .writeCheck _ | .writeAcquire _ | .writeBody _ | .writeRelease
  | .endAcquire | .endBody => true
  | _ => false

/-- The process has set `log.committing` and not yet cleared it. -/
def Pc.commits : Pc → Bool
  | .endRelease true | .commit | .writeLog _ | .commitHead | .installTrans _ | .clear
  | .eraseHead | .doneAcquire | .doneBody => true
  | _ => false

/-- The committing process has no more blocks to write. -/
def Pc.cleared : Pc → Bool
  | .eraseHead | .doneAcquire | .doneBody => true
  | _ => false

theorem Pc.commits_of_cleared {x : Pc} (h : x.cleared = true) : x.commits = true := by
  cases x <;> first | rfl | cases h

/-- The process sleeps in `begin_op`, or has decided to, and is not woken. -/
def Pc.dozes : Pc → Bool
  | .sleepAcquire | .sleepRelease | .sleepSched | .asleep => true
  | _ => false

/-- The block that a process in `log_write` has yet to put into the header. -/
def Pc.pending : Pc → Option Nat
  | .writeCheck b | .writeAcquire b | .writeBody b => some b
  | _ => none

def Pc.entering : Pc → Bool
  | .beginAcquire | .beginTest | .sleepAcquire | .sleepRelease | .sleepSched | .asleep => true
  | _ => false

/-- The invariant of the log's state machine, while no recovery runs. -/
structure Inv (s : St) : Prop where
  lock : Tracks s.lock Pc.holdsLog s.pc
  ptable : Tracks s.ptable Pc.holdsPtable s.pc
  counted : ∃ n : Nat, Counts n Pc.counted s.pc ∧ s.outstanding = n
  committer : ∃ c, Tracks c Pc.commits s.pc ∧ s.committing = c.isSome
  alone : s.committing = true → s.outstanding = 0
  empty : s.outstanding = 0 → s.committing = false → s.lh = []
  cleared : ∀ p, (s.pc p).cleared = true → s.lh = []
  nodup : s.lh.Nodup
  logged : s.lh.toFinset = s.logged
  dozes : ∀ p, (s.pc p).dozes = true →
    s.committing = true ∨ 1 ≤ s.outstanding ∨ ∃ q, s.pc q = .doneWakeup

theorem inv_boot (d : Nat → Block) : Inv (boot d) where
  lock := fun p => by simp [boot, Pc.holdsLog]
  ptable := fun p => by simp [boot, Pc.holdsPtable]
  counted := ⟨0, counts_zero fun _ => rfl, rfl⟩
  committer := ⟨none, fun p => by simp [boot, Pc.commits], rfl⟩
  alone := fun h => by cases h
  empty := fun _ _ => rfl
  cleared := fun p h => by cases h
  nodup := List.nodup_nil
  logged := rfl
  dozes := fun p h => by cases h

theorem Inv.congr (h : Inv s) (hl : s'.lock = s.lock) (ht : s'.ptable = s.ptable)
    (ho : s'.outstanding = s.outstanding) (hc : s'.committing = s.committing)
    (hlh : s'.lh = s.lh) (hg : s'.logged = s.logged) (hp : s'.pc = s.pc) : Inv s' := by
  obtain ⟨h₁, h₂, h₃, h₄, h₅, h₆, h₇, h₈, h₉, h₁₀⟩ := h
  constructor <;> simp only [hl, ht, ho, hc, hlh, hg, hp] <;> assumption

/-- Two steps that the invariant does not tell apart. -/
def Pc.Similar (x y : Pc) : Prop :=
  x.holdsPtable = y.holdsPtable ∧ x.counted = y.counted ∧ x.commits = y.commits ∧
    (x.dozes = true → y.dozes = true)

theorem Inv.dozes_update (h : Inv s) (hx : x.dozes = true → (s.pc p).dozes = true)
    (hp : s.pc p ≠ .doneWakeup) (q : Pid)
    (hq : (update s.pc p x q).dozes = true) :
    s.committing = true ∨ 1 ≤ s.outstanding ∨
      ∃ r, update s.pc p x r = .doneWakeup := by
  have hd : (s.pc q).dozes = true := imp_update (P := fun y : Pc => y.dozes = true) hx hq
  rcases h.dozes q hd with hc | ho | ⟨r, hr⟩
  · exact .inl hc
  · exact .inr (.inl ho)
  · refine .inr (.inr ⟨r, ?_⟩)
    rw [update_of_ne (by rintro rfl; exact hp hr), hr]

theorem Inv.cleared_update (h : Inv s) (hx : x.cleared = true → s.lh = [])
    (q : Pid) (hq : (update s.pc p x q).cleared = true) : s.lh = [] := by
  rcases update_cases (P := fun y : Pc => y.cleared = true) hq with ⟨-, hq⟩ | ⟨-, hq⟩
  · exact hx hq
  · exact h.cleared q hq

theorem Inv.moved (h : Inv s) (hp : s.pc p = y) (hl : Tracks l Pc.holdsLog (update s.pc p x))
    (ht : Tracks t Pc.holdsPtable (update s.pc p x))
    (hx : x.counted = y.counted ∧ x.commits = y.commits ∧ (x.dozes = true → y.dozes = true))
    (hc : x.cleared = true → s.lh = []) (hy : y ≠ .doneWakeup) :
    Inv { s.goto p x with lock := l, ptable := t } := by
  subst hp
  exact {
    lock := hl
    ptable := ht
    counted := h.counted.imp fun _ hn => ⟨hn.1.keep rfl hx.1, hn.2⟩
    committer := h.committer.imp fun _ ht => ⟨ht.1.keep rfl hx.2.1, ht.2⟩
    alone := h.alone
    empty := h.empty
    cleared := h.cleared_update hc
    nodup := h.nodup
    logged := h.logged
    dozes := h.dozes_update hx.2.2 hy }

theorem Inv.goto (h : Inv s) (hp : s.pc p = y) (hl : x.holdsLog = y.holdsLog)
    (hx : x.Similar y) (hc : x.cleared = true → s.lh = []) (hy : y ≠ .doneWakeup) :
    Inv (s.goto p x) :=
  h.moved hp (h.lock.keep hp hl) (h.ptable.keep hp hx.1) hx.2 hc hy

theorem Inv.acquire (h : Inv s) (hp : s.pc p = y) (hs : s.lock = none)
    (hl : x.holdsLog = true) (hx : x.Similar y) (hc : x.cleared = true → s.lh = [])
    (hy : y ≠ .doneWakeup) : Inv { s.goto p x with lock := some p } :=
  h.moved hp (Tracks.take (hs ▸ h.lock) hl) (h.ptable.keep hp hx.1) hx.2 hc hy

theorem Inv.release (h : Inv s) (hp : s.pc p = y) (hl : y.holdsLog = true)
    (hl' : x.holdsLog = false) (hx : x.Similar y) (hc : x.cleared = true → s.lh = [])
    (hy : y ≠ .doneWakeup) : Inv (s.release p x) :=
  h.moved hp (h.lock.drop hp hl hl') (h.ptable.keep hp hx.1) hx.2 hc hy

theorem roused_flag (f : Pc → Bool) (hf : f .beginAcquire = f .asleep) (pc : Pid → Pc)
    (q : Pid) : f (roused pc q) = f (pc q) := by
  rw [roused]
  split
  · next h => rw [h, hf]
  · rfl

theorem roused_of_ne (h : pc p ≠ .asleep) : roused pc p = pc p := by
  rw [roused, if_neg h]

theorem Inv.not_dozes_roused (h : Inv s) (ht : s.ptable = none)
    (hl : (s.pc p).holdsLog = true) (hd : (s.pc p).dozes = false) (q : Pid) :
    (roused s.pc q).dozes = false := by
  have ht' := Tracks.none_false (ht ▸ h.ptable) q
  have hl' : (s.pc q).holdsLog = true → (s.pc q).dozes = false := fun hq => by
    rw [h.lock.unique hq hl, hd]
  rw [roused]
  split
  · rfl
  · next hn =>
    generalize s.pc q = x at ht' hl' hn
    cases x with
    | sleepAcquire => exact hl' rfl
    | sleepRelease => cases ht'
    | sleepSched => cases ht'
    | asleep => exact absurd rfl hn
    | _ => rfl

theorem Inv.wakeup (h : Inv s) (hp : s.pc p = y) (ht : s.ptable = none)
    (hl : y.holdsLog = true) (hd : y.dozes = false) (hl' : x.holdsLog = true)
    (hx : x.Similar y) (hcl : x.cleared = y.cleared) :
    Inv { s with pc := update (roused s.pc) p x } := by
  subst hp
  have hpc : roused s.pc p = s.pc p :=
    roused_of_ne (by intro he; rw [he] at hl; cases hl)
  have hflag (f : Pc → Bool) (hf : f .beginAcquire = f .asleep) (he : f x = f (s.pc p))
      (q : Pid) : f (update (roused s.pc) p x q) = f (s.pc q) :=
    (proj_update f _ (by rw [hpc, he]) q).trans (roused_flag f hf s.pc q)
  have hsleep (q : Pid) : (update (roused s.pc) p x q).dozes = false := by
    by_cases he : q = p
    · subst he
      rw [update_self]
      cases hxd : x.dozes with
      | false => rfl
      | true => exact (hx.2.2.2 hxd).symm.trans hd
    · rw [update_of_ne he, h.not_dozes_roused ht hl hd q]
  exact {
    lock := h.lock.congr (hflag _ rfl (by rw [hl', hl]))
    ptable := h.ptable.congr (hflag _ rfl hx.1)
    counted := h.counted.imp fun _ hn => ⟨hn.1.congr (hflag _ rfl hx.2.1), hn.2⟩
    committer := h.committer.imp fun _ hc => ⟨hc.1.congr (hflag _ rfl hx.2.2.1), hc.2⟩
    alone := h.alone
    empty := h.empty
    cleared := fun q hq => h.cleared q ((hflag _ rfl hcl q).symm.trans hq)
    nodup := h.nodup
    logged := h.logged
    dozes := fun q hq => by cases (hsleep q).symm.trans hq }

theorem Inv.outstanding_pos (h : Inv s) (hp : (s.pc p).counted = true) :
    1 ≤ s.outstanding := by
  obtain ⟨n, hn, ho⟩ := h.counted
  have hpos := hn.pos hp
  omega

theorem Inv.not_committing (h : Inv s) (hp : (s.pc p).counted = true) :
    s.committing = false := by
  cases hc : s.committing with
  | false => rfl
  | true =>
    have h₀ := h.alone hc
    have h₁ := h.outstanding_pos hp
    omega

theorem Inv.committing_of (h : Inv s) (hp : (s.pc p).commits = true) :
    s.committing = true := by
  obtain ⟨c, hc, he⟩ := h.committer
  rw [he, (hc p).2 hp]
  rfl

theorem Inv.no_committer (h : Inv s) (hc : s.committing = false) :
    Tracks none Pc.commits s.pc := by
  obtain ⟨c, ht, he⟩ := h.committer
  cases c with
  | none => exact ht
  | some q => rw [hc] at he; cases he

theorem Inv.enter (h : Inv s) (hp : s.pc p = .beginTest) (ha : admits s = true) :
    Inv { s.goto p .beginRelease with outstanding := s.outstanding + 1 } where
  lock := h.lock.keep hp rfl
  ptable := h.ptable.keep hp rfl
  counted := by
    obtain ⟨n, hn, ho⟩ := h.counted
    refine ⟨n + 1, hn.enter hp rfl rfl, ?_⟩
    simp only [ho, Nat.cast_add, Nat.cast_one]
  committer := h.committer.imp fun _ hc => ⟨hc.1.keep hp rfl, hc.2⟩
  alone := fun hc => by
    have hc' : s.committing = true := hc
    simp [admits, hc'] at ha
  empty := fun ho => by
    obtain ⟨n, _, hn⟩ := h.counted
    have ho' : s.outstanding + 1 = 0 := ho
    omega
  cleared := h.cleared_update nofun
  nodup := h.nodup
  logged := h.logged
  dozes := fun q hq => by
    obtain ⟨n, _, hn⟩ := h.counted
    refine .inr (.inl ?_)
    change 1 ≤ s.outstanding + 1
    omega

theorem Inv.refuse (h : Inv s) (hp : s.pc p = .beginTest) (ha : admits s = false) :
    Inv (s.goto p .sleepAcquire) where
  lock := h.lock.keep hp rfl
  ptable := h.ptable.keep hp rfl
  counted := h.counted.imp fun _ hn => ⟨hn.1.keep hp rfl, hn.2⟩
  committer := h.committer.imp fun _ hc => ⟨hc.1.keep hp rfl, hc.2⟩
  alone := h.alone
  empty := h.empty
  cleared := h.cleared_update nofun
  nodup := h.nodup
  logged := h.logged
  dozes := fun q _ => by
    change s.committing = true ∨ 1 ≤ s.outstanding ∨ _
    cases hc : s.committing with
    | true => exact .inl rfl
    | false =>
      refine .inr (.inl ?_)
      obtain ⟨n, _, hn⟩ := h.counted
      by_contra ho
      have ho' : s.outstanding = 0 := by omega
      have hlh := h.empty ho' hc
      simp [admits, hc, ho', hlh] at ha

theorem Inv.sleepAcquire (h : Inv s) (hp : s.pc p = .sleepAcquire) (ht : s.ptable = none) :
    Inv { s.goto p .sleepRelease with ptable := some p } :=
  h.moved hp (h.lock.keep hp rfl) (Tracks.take (ht ▸ h.ptable) rfl) ⟨rfl, rfl, id⟩ nofun nofun

theorem Inv.sleepSched (h : Inv s) (hp : s.pc p = .sleepSched) :
    Inv { s.goto p .asleep with ptable := none } :=
  h.moved hp (h.lock.keep hp rfl) (h.ptable.drop hp rfl rfl) ⟨rfl, rfl, id⟩ nofun nofun

theorem Inv.logWrite (h : Inv s) (hp : s.pc p = .writeBody b) :
    Inv { s.goto p .writeRelease with
      lh := if b ∈ s.lh then s.lh else s.lh ++ [b]
      opBlocks := update s.opBlocks p (insert b (s.opBlocks p))
      logged := insert b s.logged } where
  lock := h.lock.keep hp rfl
  ptable := h.ptable.keep hp rfl
  counted := h.counted.imp fun _ hn => ⟨hn.1.keep hp rfl, hn.2⟩
  committer := h.committer.imp fun _ hc => ⟨hc.1.keep hp rfl, hc.2⟩
  alone := h.alone
  empty := fun ho => by
    have h₁ := h.outstanding_pos (p := p) (by rw [hp]; rfl)
    have h₀ : s.outstanding = 0 := ho
    omega
  cleared := fun q hq => by
    have hc := h.not_committing (p := p) (by rw [hp]; rfl)
    have hq' : (s.pc q).cleared = true :=
      (proj_update Pc.cleared s.pc (by rw [hp]; rfl) q).symm.trans hq
    cases hc.symm.trans (h.committing_of (Pc.commits_of_cleared hq'))
  nodup := by
    change (if b ∈ s.lh then s.lh else s.lh ++ [b]).Nodup
    split
    · exact h.nodup
    · next hb =>
      refine List.nodup_append.2 ⟨h.nodup, List.nodup_singleton b, fun c hc c' hc' he => hb ?_⟩
      rw [← List.mem_singleton.1 hc', ← he]
      exact hc
  logged := by
    change (if b ∈ s.lh then s.lh else s.lh ++ [b]).toFinset = insert b s.logged
    rw [← h.logged]
    split
    · next hb => rw [Finset.insert_eq_of_mem (List.mem_toFinset.2 hb)]
    · rw [List.toFinset_append, Finset.union_comm]
      rfl
  dozes := h.dozes_update (by rw [hp]; exact id) (by rw [hp]; exact Pc.noConfusion)

theorem Inv.endLast (h : Inv s) (hp : s.pc p = .endBody) (hc : s.committing = false)
    (hz : s.outstanding - 1 = 0) :
    Inv { s.goto p (.endRelease true) with
      outstanding := s.outstanding - 1, committing := true } where
  lock := h.lock.keep hp rfl
  ptable := h.ptable.keep hp rfl
  counted := by
    obtain ⟨n, hn, ho⟩ := h.counted
    refine ⟨n - 1, hn.leave hp rfl rfl, ?_⟩
    change s.outstanding - 1 = _
    omega
  committer := ⟨some p, (h.no_committer hc).take rfl, rfl⟩
  alone := fun _ => hz
  empty := fun _ hf => by cases hf
  cleared := h.cleared_update nofun
  nodup := h.nodup
  logged := h.logged
  dozes := fun _ _ => .inl rfl

theorem Inv.endOther (h : Inv s) (hp : s.pc p = .endBody) (hc : s.committing = false)
    (hz : s.outstanding - 1 ≠ 0) :
    Inv { s.goto p .endWakeup with outstanding := s.outstanding - 1 } := by
  have h₁ := h.outstanding_pos (p := p) (by rw [hp]; rfl)
  exact {
    lock := h.lock.keep hp rfl
    ptable := h.ptable.keep hp rfl
    counted := by
      obtain ⟨n, hn, ho⟩ := h.counted
      refine ⟨n - 1, hn.leave hp rfl rfl, ?_⟩
      change s.outstanding - 1 = _
      omega
    committer := ⟨none, (h.no_committer hc).keep hp rfl, hc⟩
    alone := fun hc' => by cases hc.symm.trans hc'
    empty := fun hz' => absurd hz' hz
    cleared := h.cleared_update nofun
    nodup := h.nodup
    logged := h.logged
    dozes := fun _ _ => .inr (.inl (by change 1 ≤ s.outstanding - 1; omega)) }

theorem Inv.clear (h : Inv s) (hp : s.pc p = .clear) :
    Inv { s.goto p .eraseHead with lh := [], logged := ∅ } where
  lock := h.lock.keep hp rfl
  ptable := h.ptable.keep hp rfl
  counted := h.counted.imp fun _ hn => ⟨hn.1.keep hp rfl, hn.2⟩
  committer := h.committer.imp fun _ hc => ⟨hc.1.keep hp rfl, hc.2⟩
  alone := h.alone
  empty := fun _ _ => rfl
  cleared := fun _ _ => rfl
  nodup := List.nodup_nil
  logged := rfl
  dozes := h.dozes_update (by rw [hp]; exact id) (by rw [hp]; exact Pc.noConfusion)

theorem Inv.doneBody (h : Inv s) (hp : s.pc p = .doneBody) :
    Inv { s.goto p .doneWakeup with committing := false } := by
  obtain ⟨c, hc, he⟩ := h.committer
  exact {
    lock := h.lock.keep hp rfl
    ptable := h.ptable.keep hp rfl
    counted := h.counted.imp fun _ hn => ⟨hn.1.keep hp rfl, hn.2⟩
    committer := ⟨none, hc.drop hp rfl rfl, rfl⟩
    alone := fun hf => by cases hf
    empty := fun _ _ => h.cleared p (by rw [hp]; rfl)
    cleared := h.cleared_update nofun
    nodup := h.nodup
    logged := h.logged
    dozes := fun _ _ => .inr (.inr ⟨p, update_self ..⟩) }

theorem Inv.calls (h : Inv s) (hs : Calls s p c s') : Inv s' := by
  cases hs with
  | beginOp hp =>
    have h' := h.goto (x := .beginAcquire) hp rfl ⟨rfl, rfl, rfl, nofun⟩ nofun nofun
    exact h'.congr rfl rfl rfl rfl rfl rfl rfl
  | @logWrite b d hp =>
    have h' := h.goto (x := .writeCheck b.toNat) hp rfl ⟨rfl, rfl, rfl, nofun⟩ nofun nofun
    exact h'.congr rfl rfl rfl rfl rfl rfl rfl
  | endOp hp => exact h.goto hp rfl ⟨rfl, rfl, rfl, nofun⟩ nofun nofun

theorem Inv.copyBlock (h : Inv s) : Inv (s.copyBlock src dst) :=
  h.congr rfl rfl rfl rfl rfl rfl rfl

theorem Inv.writeHead (h : Inv s) : Inv (s.writeHead L) :=
  h.congr rfl rfl rfl rfl rfl rfl rfl

theorem Inv.moves (h : Inv s) (hs : Moves L s p s') : Inv s' := by
  cases hs with
  | beginAcquire hp hl => exact h.acquire hp hl rfl ⟨rfl, rfl, rfl, nofun⟩ nofun nofun
  | enter hp ha => exact h.enter hp ha
  | refuse hp ha => exact h.refuse hp ha
  | sleepAcquire hp ht => exact h.sleepAcquire hp ht
  | sleepRelease hp => exact h.release hp rfl rfl ⟨rfl, rfl, rfl, id⟩ nofun nofun
  | sleepSched hp => exact h.sleepSched hp
  | beginRelease hp => exact h.release hp rfl rfl ⟨rfl, rfl, rfl, nofun⟩ nofun nofun
  | writeCheck hp => exact h.goto hp rfl ⟨rfl, rfl, rfl, nofun⟩ nofun nofun
  | writeAcquire hp hl => exact h.acquire hp hl rfl ⟨rfl, rfl, rfl, nofun⟩ nofun nofun
  | writeBody hp => exact h.logWrite hp
  | writeRelease hp => exact h.release hp rfl rfl ⟨rfl, rfl, rfl, nofun⟩ nofun nofun
  | endAcquire hp hl => exact h.acquire hp hl rfl ⟨rfl, rfl, rfl, nofun⟩ nofun nofun
  | endLast hp hc ho => exact h.endLast hp hc ho
  | endOther hp hc ho => exact h.endOther hp hc ho
  | endWakeup hp ht => exact h.wakeup hp ht rfl rfl rfl ⟨rfl, rfl, rfl, nofun⟩ rfl
  | @endRelease c hp =>
    cases c with
    | false => exact h.release hp rfl rfl ⟨rfl, rfl, rfl, nofun⟩ nofun nofun
    | true => exact h.release hp rfl rfl ⟨rfl, rfl, rfl, nofun⟩ nofun nofun
  | commit hp => exact h.goto hp rfl ⟨rfl, rfl, rfl, nofun⟩ nofun nofun
  | commitNothing hp hn =>
    exact h.goto hp rfl ⟨rfl, rfl, rfl, nofun⟩ (fun _ => hn) nofun
  | writeLog hp => exact h.copyBlock.goto hp rfl ⟨rfl, rfl, rfl, nofun⟩ nofun nofun
  | writeLogDone hp => exact h.goto hp rfl ⟨rfl, rfl, rfl, nofun⟩ nofun nofun
  | commitHead hp =>
    have h' := (h.writeHead (L := L)).goto (x := .installTrans 0) hp rfl
      ⟨rfl, rfl, rfl, nofun⟩ nofun nofun
    exact h'.congr rfl rfl rfl rfl rfl rfl rfl
  | installTrans hp => exact h.copyBlock.goto hp rfl ⟨rfl, rfl, rfl, nofun⟩ nofun nofun
  | installTransDone hp => exact h.goto hp rfl ⟨rfl, rfl, rfl, nofun⟩ nofun nofun
  | clear hp => exact h.clear hp
  | eraseHead hp =>
    exact (h.writeHead (L := L)).goto hp rfl ⟨rfl, rfl, rfl, nofun⟩
      (fun _ => h.cleared p (by rw [hp]; rfl)) nofun
  | doneAcquire hp hl =>
    exact h.acquire hp hl rfl ⟨rfl, rfl, rfl, nofun⟩
      (fun _ => h.cleared p (by rw [hp]; rfl)) nofun
  | doneBody hp => exact h.doneBody hp
  | doneWakeup hp ht => exact h.wakeup hp ht rfl rfl rfl ⟨rfl, rfl, rfl, nofun⟩ rfl
  | doneRelease hp => exact h.release hp rfl rfl ⟨rfl, rfl, rfl, nofun⟩ nofun nofun

/-- While the kernel recovers, no process runs. -/
structure Quiet (s : St) : Prop where
  lock : s.lock = none
  ptable : s.ptable = none
  outstanding : s.outstanding = 0
  committing : s.committing = false
  logged : s.logged = ∅
  pc : ∀ p, s.pc p = .idle

/-- Every reachable state is one of a running log or of a recovery. -/
structure Valid (s : St) : Prop where
  running : s.recovery = none → Inv s
  recovering : ∀ r, s.recovery = some r → Quiet s
  erasing : s.recovery = some .eraseHead → s.lh = []

theorem Quiet.inv (h : Quiet s) (hlh : s.lh = []) : Inv s where
  lock := fun p => by simp [h.lock, h.pc, Pc.holdsLog]
  ptable := fun p => by simp [h.ptable, h.pc, Pc.holdsPtable]
  counted := ⟨0, counts_zero fun p => by rw [h.pc p]; rfl, h.outstanding⟩
  committer := ⟨none, fun p => by simp [h.pc, Pc.commits], h.committing⟩
  alone := fun _ => h.outstanding
  empty := fun _ _ => hlh
  cleared := fun _ _ => hlh
  nodup := by rw [hlh]; exact List.nodup_nil
  logged := by rw [hlh, h.logged]; rfl
  dozes := fun p hp => by rw [h.pc p] at hp; cases hp

theorem Valid.recovers (h : Valid s) (hr : s.recovery = some r) (hs : Recovers L s r s') :
    Valid s' := by
  have hq := h.recovering r hr
  cases hs with
  | eraseHead =>
    have hi : Inv s := hq.inv (h.erasing hr)
    exact ⟨fun _ => hi.congr rfl rfl rfl rfl rfl rfl rfl, nofun, nofun⟩
  | clear => exact ⟨nofun, fun _ _ => ⟨hq.1, hq.2, hq.3, hq.4, hq.5, hq.6⟩, fun _ => rfl⟩
  | _ => exact ⟨nofun, fun _ _ => ⟨hq.1, hq.2, hq.3, hq.4, hq.5, hq.6⟩, nofun⟩

theorem Inv.valid (h : Inv s) (hr : s.recovery = none) : Valid s where
  running := fun _ => h
  recovering := fun r hr' => by cases hr.symm.trans hr'
  erasing := fun hr' => by cases hr.symm.trans hr'

theorem Calls.recovery (hs : Calls s p c s') : s'.recovery = s.recovery := by
  cases hs <;> rfl

theorem Moves.recovery (hs : Moves L s p s') : s'.recovery = s.recovery := by
  cases hs <;> rfl

theorem Valid.steps (h : Valid s) (hs : Steps L s e s') : Valid s' := by
  cases hs with
  | crash => exact ⟨nofun, fun _ _ => ⟨rfl, rfl, rfl, rfl, rfl, fun _ => rfl⟩, nofun⟩
  | recover hr hs => exact h.recovers hr hs
  | call hr hs => exact ((h.running hr).calls hs).valid (hs.recovery.trans hr)
  | step hr hs => exact ((h.running hr).moves hs).valid (hs.recovery.trans hr)
  | @kill p hr hp ht =>
    have hi := (h.running hr).goto (x := .beginAcquire) hp rfl ⟨rfl, rfl, rfl, nofun⟩ nofun nofun
    exact hi.valid hr

theorem valid_of_exec (h : Exec (Log.step L) legal (boot d) evs s) : Valid s :=
  h.invariant ((inv_boot d).valid rfl) fun _ _ _ hi _ hs => hi.steps (steps_of_step hs)

def Pc.inCommit : Pc → Bool
  | .commit | .writeLog _ | .commitHead | .installTrans _ | .clear | .eraseHead => true
  | _ => false

def Pc.inLogWrite : Pc → Bool
  | .writeCheck _ | .writeAcquire _ | .writeBody _ | .writeRelease => true
  | _ => false

theorem Pc.commits_of_inCommit {x : Pc} (h : x.inCommit = true) : x.commits = true := by
  cases x <;> first | rfl | cases h

theorem Pc.counted_of_inLogWrite {x : Pc} (h : x.inLogWrite = true) : x.counted = true := by
  cases x <;> first | rfl | cases h

theorem Inv.not_counted (h : Inv s) (hc : s.committing = true) (p : Pid) :
    (s.pc p).counted = false := by
  obtain ⟨n, hn, ho⟩ := h.counted
  have h₀ := h.alone hc
  have hz : n = 0 := by omega
  subst hz
  exact hn.zero_false p

/-- Only `begin_op` raises `outstanding`, and not during a commit. -/
theorem Moves.outstanding_le (hs : Moves L s p s') (hc : s.committing = true) :
    s'.outstanding ≤ s.outstanding := by
  cases hs with
  | enter hp ha => simp [admits, hc] at ha
  | endLast hp hc' => cases hc.symm.trans hc'
  | endOther hp hc' => cases hc.symm.trans hc'
  | _ => exact Int.le_refl _

theorem callStep_blocked (h : callStep s p c = .error f) : f = .blocked := by
  simp only [callStep] at h
  split at h <;> cases h
  rfl

theorem Inv.no_panic (h : Inv s) (hs : step L s e = .error (.panic "log.committing")) :
    False := by
  cases e with simp only [step] at hs
  | crash => cases hs
  | recover =>
    split at hs
    · next r hr =>
      cases r with simp only [recoverStep] at hs
      | readHead | installTrans => split at hs <;> cases hs
      | _ => cases hs
    · cases hs
  | call p c =>
    split at hs
    · cases callStep_blocked hs
    · cases hs
  | step p =>
    split at hs
    · have hf := stops_of_procStep hs
      generalize he : Fault.panic "log.committing" = f at hf
      cases hf with
      | committing hp hc => cases (h.not_committing (p := p) (by rw [hp]; rfl)).symm.trans hc
      | _ => simp at he
    · cases hs
  | kill p => split at hs <;> cases hs

theorem log_state_machine (h : Exec (step L) legal (boot d) evs s) (hr : s.recovery = none) :
    (∀ p, (s.pc p).inCommit = true → s.outstanding = 0 ∧ s.committing = true) ∧
    (s.committing = true → ∀ p, (s.pc p).inLogWrite = false ∧
      (∀ s', step L s (.step p) = .ok s' → s'.outstanding ≤ s.outstanding) ∧
      ∀ b d', step L s (.call p (.logWrite b d')) = .error .blocked) ∧
    (∀ e, step L s e ≠ .error (.panic "log.committing")) ∧
    (s.outstanding = 0 → s.committing = false → s.lh = []) ∧
    (s.lh.Nodup ∧ s.lh.toFinset = s.logged) ∧
    (s.lock = none → ∀ p, s.pc p = .asleep → s.committing = true ∨ 1 ≤ s.outstanding) := by
  have hv := (valid_of_exec h).running hr
  refine ⟨fun p hp => ?_, fun hc p => ⟨?_, fun s' hs => ?_, fun b d' => ?_⟩, fun e he => ?_,
    hv.empty, ⟨hv.nodup, hv.logged⟩, fun hl p hp => ?_⟩
  · have hc := hv.committing_of (Pc.commits_of_inCommit hp)
    exact ⟨hv.alone hc, hc⟩
  · cases hw : (s.pc p).inLogWrite with
    | false => rfl
    | true => cases (hv.not_counted hc p).symm.trans (Pc.counted_of_inLogWrite hw)
  · simp only [step, hr, ↓reduceIte] at hs
    exact (moves_of_procStep hs).outstanding_le hc
  · have hn := hv.not_counted hc p
    simp only [step, hr, ↓reduceIte, callStep]
    split
    · next he => cases he
    · next he _ => rw [he] at hn; cases hn
    · next he => cases he
    · rfl
  · exact hv.no_panic he
  · rcases hv.dozes p (by rw [hp]; rfl) with hc | ho | ⟨q, hq⟩
    · exact .inl hc
    · exact .inr ho
    · have hn := Tracks.none_false (hl ▸ hv.lock) q
      rw [hq] at hn
      cases hn

/-- One process commits block 100 while another one sleeps in `begin_op`. -/
def commitRun : List Event :=
  [.call 0 .beginOp, .step 0, .step 0, .step 0, .call 0 (.logWrite 100 fun _ => 7),
    .step 0, .step 0, .step 0, .step 0, .call 0 .endOp, .step 0, .step 0, .step 0,
    .call 1 .beginOp, .step 1, .step 1, .step 1, .step 1, .step 1, .step 0, .step 0]

theorem log_state_machine_commitRun :
    ∃ s, runLegal (step ⟨2, 30⟩) (fun _ _ => true) (boot fun _ _ => 0) commitRun = some s ∧
      s.pc 0 = .writeLog 1 ∧ s.outstanding = 0 ∧ s.pc 1 = .asleep ∧ s.committing = true ∧
      s.lh.toFinset = s.logged := by
  have h := exec_of_runLegal (step ⟨2, 30⟩) (fun _ _ => true) (boot fun _ _ => 0) commitRun rfl
  have hm := log_state_machine h rfl
  exact ⟨_, rfl, rfl, (hm.1 0 rfl).1, rfl, (hm.1 0 rfl).2, hm.2.2.2.2.1.2⟩

end Xv6.Log
