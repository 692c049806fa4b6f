import Xv6.Log.Durable

namespace Xv6.Log
open Lib Function
set_option autoImplicit true

def Redone (L : LogArea) (base : Nat → Block) (lh : List Nat) (disk : Nat → Block) :
    Recovery → Prop
  | .readHead => True
  | .installTrans tail => readHead (disk L.start) = lh ∧
      ∀ i b, i < tail → lh[i]? = some b → disk b = base b
  | .clear => ∀ b, ¬L.Mem b → disk b = base b
  | .eraseHead => lh = [] ∧ ∀ b, ¬L.Mem b → disk b = base b

/-- A recovery, at every point of which a crash can be recovered from. -/
structure Restoring (L : LogArea) (d : Nat → Block) (s : St) (r : Recovery) : Prop where
  recoverable : Recoverable L s.store.disk (s.base d)
  view : s.store.view = s.store.disk
  updates : s.updates = []
  progress : Redone L (s.base d) s.lh s.store.disk r

/-- In every reachable state a crash can be recovered from. -/
structure Safe (L : LogArea) (d : Nat → Block) (s : St) : Prop where
  valid : Valid s
  running : s.recovery = none → Durable L d s
  recovering : ∀ r, s.recovery = some r → Restoring L d s r

theorem Safe.recoverable (h : Safe L d s) : Recoverable L s.store.disk (s.base d) := by
  cases hr : s.recovery with
  | none => exact (h.running hr).recoverable
  | some r => exact (h.recovering r hr).recoverable

theorem Restoring.installTrans (h : Restoring L d s (.installTrans tail))
    (hb : s.lh[tail]? = some b) :
    Restoring L d { s.copyBlock (L.block tail) b with
      recovery := some (.installTrans (tail + 1)) } (.installTrans (tail + 1)) := by
  obtain ⟨hhead, hdone⟩ := h.progress
  have hb' : (readHead (s.store.disk L.start))[tail]? = some b := by rwa [hhead]
  have hm : ¬L.Mem b := h.recoverable.homes b (List.mem_of_getElem? hb')
  have hL : 0 < L.size := by
    have hs := h.recoverable.short.2
    omega
  have hput : s.store.put b (s.store.view (L.block tail)) = s.store.put b (s.base d b) := by
    rw [h.view, h.recoverable.copies tail b hb']
  refine ⟨?_, ?_, h.updates, ?_, fun i c hit hc => ?_⟩ <;>
    simp only [St.copyBlock, hput, Store.put_disk, Store.put_view]
  · exact h.recoverable.install hm
  · rw [h.view]
  · rw [update_of_ne, hhead]
    rintro rfl
    exact hm (L.mem_start hL)
  · change update s.store.disk b (s.base d b) c = s.base d c
    by_cases he : c = b
    · rw [he, update_self]
    · rw [update_of_ne he]
      refine hdone i c (Nat.lt_of_le_of_ne (Nat.le_of_lt_succ hit) ?_) hc
      rintro rfl
      exact he (Option.some.inj (hc.symm.trans hb))

theorem Restoring.installTransDone (h : Restoring L d s (.installTrans tail))
    (hb : s.lh[tail]? = none) (c : Nat) (hc : ¬L.Mem c) : s.store.disk c = s.base d c := by
  obtain ⟨hhead, hdone⟩ := h.progress
  by_cases hm : c ∈ s.lh
  · obtain ⟨i, hi⟩ := List.mem_iff_getElem?.1 hm
    obtain ⟨hlt, -⟩ := List.getElem?_eq_some_iff.1 hi
    have hle := List.getElem?_eq_none_iff.1 hb
    exact hdone i c (by omega) hi
  · exact h.recoverable.rest c hc (by rwa [hhead])

theorem Restoring.eraseHead (h : Restoring L d s .eraseHead) (hq : Quiet s) :
    Durable L d { s.writeHead L with recovery := none } := by
  obtain ⟨hlh, hdone⟩ := h.progress
  have hL : 0 < L.size := by
    have hs := h.recoverable.short.2
    omega
  have hne (b : Nat) (hb : ¬L.Mem b) : b ≠ L.start := by
    rintro rfl
    exact hb (L.mem_start hL)
  refine durable_of_quiet hL hq.pc hlh h.updates ?_ fun b hb => ?_
  · rw [St.writeHead, Store.put_disk, update_self, readHead_writeHead, hlh]
    · rw [hlh]
      exact Nat.zero_le _
    · rw [hlh]
      exact fun _ hb => absurd hb List.not_mem_nil
  · have hw := s.writeHead_of_ne (hne b hb)
    exact ⟨hw.1.trans (hdone b hb), hw.2.trans (by rw [h.view]; exact hdone b hb)⟩

theorem Safe.recovers (h : Safe L d s) (hr : s.recovery = some r) (hs : Recovers L s r s') :
    Safe L d s' := by
  have hv := h.valid.recovers hr hs
  have hrec := h.recovering r hr
  refine ⟨hv, fun hn => ?_, fun r' hr' => ?_⟩
  · cases hs with
    | eraseHead => exact hrec.eraseHead (h.valid.recovering _ hr)
    | _ => cases hn
  · cases hs with
    | readHead =>
      cases hr'
      refine ⟨hrec.recoverable, hrec.view, hrec.updates, ?_, nofun⟩
      exact congrArg (fun f : Nat → Block => readHead (f L.start)) hrec.view.symm
    | installTrans hb =>
      cases hr'
      exact hrec.installTrans hb
    | installTransDone hb =>
      cases hr'
      exact ⟨hrec.recoverable, hrec.view, hrec.updates, hrec.installTransDone hb⟩
    | clear =>
      cases hr'
      exact ⟨hrec.recoverable, hrec.view, hrec.updates, rfl, hrec.progress⟩
    | eraseHead => cases hr'

theorem Safe.steps (h : Safe L d s) (hs : Steps L s e s') (hl : withinLog L s e = true) :
    Safe L d s' := by
  have hv := h.valid.steps hs
  have hrun {s' : St} (hd : Durable L d s') (hv : Valid s') (hr : s'.recovery = none) :
      Safe L d s' := ⟨hv, fun _ => hd, fun r hr' => by cases hr.symm.trans hr'⟩
  cases hs with
  | crash => exact ⟨hv, nofun, fun r hr => by cases hr; exact ⟨h.recoverable, rfl, rfl, trivial⟩⟩
  | recover hr hs => exact h.recovers hr hs
  | call hr hs =>
    exact hrun ((h.running hr).calls (h.valid.running hr) hs hl) hv (hs.recovery.trans hr)
  | step hr hs =>
    exact hrun ((h.running hr).moves (h.valid.running hr) hs) hv (hs.recovery.trans hr)
  | kill hr hp => exact hrun ((h.running hr).move rfl hp rfl rfl rfl rfl rfl rfl rfl) hv hr

theorem safe_of_exec (hL : 0 < L.size) (hd : getWord (d L.start) 0 = 0)
    (h : Exec (step L) (fun s e => withinLog L s e) (boot d) evs s) : Safe L d s := by
  refine h.invariant ⟨(inv_boot d).valid rfl, fun _ => ?_, nofun⟩ fun _ _ _ hi hl hs =>
    hi.steps (steps_of_step hs) hl
  exact durable_of_quiet hL (fun _ => rfl) rfl rfl (readHead_eq_nil _ hd) fun _ _ => ⟨rfl, rfl⟩

def remaining (L : LogArea) (s : St) : Recovery → Nat
  | .readHead => (readHead (s.store.disk L.start)).length + 4
  | .installTrans tail => s.lh.length - tail + 3
  | .clear => 2
  | .eraseHead => 1

theorem Restoring.progresses (h : Restoring L d s r) :
    ∃ s', recoverStep L s r = .ok s' ∧ s'.groups = s.groups ∧
      ∀ r', s'.recovery = some r' → remaining L s' r' < remaining L s r := by
  cases r with simp only [recoverStep]
  | readHead =>
    have hn := h.recoverable.short.1
    rw [h.view, if_neg (Nat.not_lt.2 hn)]
    refine ⟨_, rfl, rfl, fun r' hr' => ?_⟩
    cases hr'
    simp only [remaining]
    omega
  | installTrans tail =>
    split
    · next b hb =>
      refine ⟨_, rfl, rfl, fun r' hr' => ?_⟩
      cases hr'
      obtain ⟨hlt, -⟩ := List.getElem?_eq_some_iff.1 hb
      simp only [remaining, St.copyBlock]
      omega
    · refine ⟨_, rfl, rfl, fun r' hr' => ?_⟩
      cases hr'
      simp only [remaining]
      omega
  | clear =>
    refine ⟨_, rfl, rfl, fun r' hr' => ?_⟩
    cases hr'
    simp only [remaining]
    omega
  | eraseHead =>
    refine ⟨_, rfl, rfl, fun r' hr' => ?_⟩
    cases hr'

/-- A recovery from `s` has ended in `s'`, with the groups in place. -/
structure Restored (L : LogArea) (d : Nat → Block) (s s' : St) : Prop where
  done : s'.recovery = none
  groups : s'.groups = s.groups
  disk : ∀ b, ¬L.Mem b → s'.store.disk b = replay d s.groups.flatten b
  view : ∀ b, ¬L.Mem b → s'.store.view b = replay d s.groups.flatten b

theorem Restoring.restored (h : Restoring L d s r) (hs : Recovers L s r s')
    (hn : s'.recovery = none) : Restored L d s s' := by
  cases hs with
  | eraseHead =>
    have hL : 0 < L.size := by
      have hs := h.recoverable.short.2
      omega
    have hw (b : Nat) (hb : ¬L.Mem b) :=
      s.writeHead_of_ne (L := L) (b := b) (by rintro rfl; exact hb (L.mem_start hL))
    refine ⟨hn, rfl, fun b hb => (hw b hb).1.trans (h.progress.2 b hb),
      fun b hb => (hw b hb).2.trans ?_⟩
    rw [h.view]
    exact h.progress.2 b hb
  | _ => cases hn

/-- An undisturbed recovery comes to its end. -/
theorem Safe.recovery_completes (h : Safe L d s) (hr : s.recovery = some r) :
    ∃ n s', runLegal (step L) (fun _ _ => true) s (List.replicate n .recover) = some s' ∧
      Restored L d s s' := by
  have hrec := h.recovering r hr
  obtain ⟨s', hs, hg, hlt⟩ := hrec.progresses
  have hstep : step L s .recover = .ok s' := by simp only [step, hr, hs]
  have hs' := recovers_of_recoverStep hs
  cases hr' : s'.recovery with
  | none =>
    refine ⟨1, s', ?_, hrec.restored hs' hr'⟩
    simp only [List.replicate, runLegal, hstep, ↓reduceIte]
  | some r' =>
    have hdec := hlt r' hr'
    obtain ⟨n, s'', hrun, hd⟩ := (h.recovers hr hs').recovery_completes hr'
    refine ⟨n + 1, s'', ?_, hd.done, hd.groups.trans hg, hg ▸ hd.disk, hg ▸ hd.view⟩
    simp only [List.replicate, runLegal, hstep, ↓reduceIte, hrun]
termination_by remaining L s r

def Update.SameOp (u v : Update) : Prop := u.pid = v.pid ∧ u.op = v.op

/-- The updates of an operation stay together. -/
structure Whole (s : St) : Prop where
  numbered : ∀ v ∈ s.issued, v.op ≤ s.opCount v.pid
  issued : ∀ g ∈ s.groups, ∀ u ∈ g, u ∈ s.issued
  current : ∀ u ∈ s.updates, u ∈ s.issued
  entering : ∀ p, (s.pc p).entering = true → ∀ v ∈ s.issued, v.pid = p → v.op < s.opCount p
  counted : ∀ p, (s.pc p).counted = true → ∀ v ∈ s.issued, v.pid = p → v.op = s.opCount p →
    v ∈ s.updates
  uncommitted : ∀ p, (s.pc p).counted = true → ∀ g ∈ s.groups, ∀ u ∈ g, u.pid = p →
    u.op < s.opCount p
  updates : ∀ u ∈ s.updates, ∀ v ∈ s.issued, u.SameOp v → v ∈ s.updates
  groups : ∀ g ∈ s.groups, ∀ u ∈ g, ∀ v ∈ s.issued, u.SameOp v → v ∈ g

theorem Whole.frame (h : Whole s) (hi : s'.issued = s.issued) (hu : s'.updates = s.updates)
    (hg : s'.groups = s.groups) (ho : s'.opCount = s.opCount)
    (he : ∀ q, (s'.pc q).entering = true → (s.pc q).entering = true)
    (hc : ∀ q, (s'.pc q).counted = true → (s.pc q).counted = true) : Whole s' := by
  obtain ⟨h₁, h₂, h₃, h₄, h₅, h₆, h₇, h₈⟩ := h
  constructor <;> simp only [hi, hu, hg, ho]
  · exact h₁
  · exact h₂
  · exact h₃
  · exact fun p hp => h₄ p (he p hp)
  · exact fun p hp => h₅ p (hc p hp)
  · exact fun p hp => h₆ p (hc p hp)
  · exact h₇
  · exact h₈

theorem Whole.move (h : Whole s) (hpc : s'.pc = update s.pc p x) (hp : s.pc p = y)
    (hi : s'.issued = s.issued) (hu : s'.updates = s.updates) (hg : s'.groups = s.groups)
    (ho : s'.opCount = s.opCount) (he : x.entering = true → y.entering = true)
    (hc : x.counted = true → y.counted = true) : Whole s' := by
  subst hp
  refine h.frame hi hu hg ho (fun q hq => ?_) (fun q hq => ?_) <;> rw [hpc] at hq
  · exact imp_update (P := fun x : Pc => x.entering = true) he hq
  · exact imp_update (P := fun x : Pc => x.counted = true) hc hq

theorem Whole.wakeup (h : Whole s) (he : x.entering = false) (hc : x.counted = false) :
    Whole { s with pc := update (roused s.pc) p x } := by
  have hr : Whole { s with pc := roused s.pc } :=
    h.frame rfl rfl rfl rfl (fun q hq => (roused_flag _ rfl s.pc q).symm.trans hq)
      (fun q hq => (roused_flag _ rfl s.pc q).symm.trans hq)
  exact hr.move (y := roused s.pc p) rfl rfl rfl rfl rfl rfl (by simp [he]) (by simp [hc])

theorem Whole.enter (h : Whole s) (hp : s.pc p = .beginTest) :
    Whole { s.goto p .beginRelease with outstanding := s.outstanding + 1 } := by
  have hfresh := h.entering p (by rw [hp]; rfl)
  refine ⟨h.numbered, h.issued, h.current, fun q hq => h.entering q ?_, fun q hq => ?_,
    fun q hq => ?_, h.updates, h.groups⟩
  · exact imp_update (x := .beginRelease) (P := fun x : Pc => x.entering = true) nofun hq
  · by_cases he : q = p
    · subst he
      exact fun v hv hpid hop => absurd hop (hfresh v hv hpid).ne
    · exact h.counted q (by simpa only [St.goto, update_of_ne he] using hq)
  · by_cases he : q = p
    · subst he
      exact fun g hg u hu => hfresh u (h.issued g hg u hu)
    · exact h.uncommitted q (by simpa only [St.goto, update_of_ne he] using hq)

theorem Whole.commitHead (h : Whole s) (hi : Inv s) (hp : s.pc p = .commitHead) :
    Whole { (s.writeHead L).goto p (.installTrans 0) with
      updates := [], groups := s.groups ++ [s.updates] } := by
  have hn := hi.not_counted (hi.committing_of (p := p) (by rw [hp]; rfl))
  have hn' (q : Pid) : (update s.pc p (.installTrans 0) q).counted = false :=
    (proj_update Pc.counted s.pc (by rw [hn]; rfl) q).trans (hn q)
  have hgroup (g : List Update) (hg : g ∈ s.groups ++ [s.updates]) :
      g ∈ s.groups ∨ g = s.updates := by
    simpa only [List.mem_append, List.mem_singleton] using hg
  refine ⟨h.numbered, fun g hg => ?_, nofun, fun q hq => h.entering q ?_, fun q hq => ?_,
    fun q hq => ?_, nofun, fun g hg => ?_⟩
  · rcases hgroup g hg with hg | rfl
    · exact h.issued g hg
    · exact h.current
  · exact imp_update (x := .installTrans 0) (P := fun x : Pc => x.entering = true) nofun hq
  · cases (hn' q).symm.trans hq
  · cases (hn' q).symm.trans hq
  · rcases hgroup g hg with hg | rfl
    · exact h.groups g hg
    · exact h.updates

theorem Whole.moves (h : Whole s) (hi : Inv s) (hs : Moves L s p s') : Whole s' := by
  cases hs with
  | enter hp => exact h.enter hp
  | commitHead hp => exact h.commitHead hi hp
  | endWakeup => exact h.wakeup rfl rfl
  | doneWakeup => exact h.wakeup rfl rfl
  | @endRelease c hp =>
    cases c with
    | false => exact h.move rfl hp rfl rfl rfl rfl nofun nofun
    | true => exact h.move rfl hp rfl rfl rfl rfl nofun nofun
  | beginAcquire hp | refuse hp | sleepAcquire hp | sleepRelease hp | sleepSched hp =>
    exact h.move rfl hp rfl rfl rfl rfl (fun _ => rfl) nofun
  | beginRelease hp | writeCheck hp | writeAcquire hp | writeBody hp | writeRelease hp
  | endAcquire hp => exact h.move rfl hp rfl rfl rfl rfl nofun (fun _ => rfl)
  | endLast hp | endOther hp | commit hp | commitNothing hp | writeLog hp | writeLogDone hp
  | installTrans hp | installTransDone hp | clear hp | eraseHead hp | doneAcquire hp
  | doneBody hp | doneRelease hp => exact h.move rfl hp rfl rfl rfl rfl nofun nofun

theorem Whole.beginOp (h : Whole s) (hp : s.pc p = .idle) :
    Whole { s.goto p .beginAcquire with
      opCount := update s.opCount p (s.opCount p + 1)
      opBlocks := update s.opBlocks p ∅ } := by
  have hcount (q : Pid) (hq : q ≠ p) :
      update s.opCount p (s.opCount p + 1) q = s.opCount q :=
    update_of_ne hq _ _
  have hne (q : Pid) (hq : (update s.pc p .beginAcquire q).counted = true) :
      q ≠ p ∧ (s.pc q).counted = true := by
    by_cases he : q = p
    · subst he
      rw [update_self] at hq
      cases hq
    · exact ⟨he, by rwa [update_of_ne he] at hq⟩
  refine ⟨fun v hv => ?_, h.issued, h.current, fun q hq v hv hpid => ?_, fun q hq => ?_,
    fun q hq => ?_, h.updates, h.groups⟩
  · refine Nat.le_trans (h.numbered v hv) ?_
    change _ ≤ update s.opCount p _ v.pid
    by_cases he : v.pid = p
    · rw [he, update_self]
      exact Nat.le_succ _
    · exact (hcount _ he).ge
  · change v.op < update s.opCount p _ q
    by_cases he : q = p
    · subst he hpid
      rw [update_self]
      exact Nat.lt_succ_of_le (h.numbered v hv)
    · rw [hcount q he]
      exact h.entering q (by simpa only [St.goto, update_of_ne he] using hq) v hv hpid
  · obtain ⟨he, hq⟩ := hne q hq
    simp only [hcount q he]
    exact h.counted q hq
  · obtain ⟨he, hq⟩ := hne q hq
    simp only [hcount q he]
    exact h.uncommitted q hq

theorem Whole.logWrite (h : Whole s) (hp : s.pc p = .inOp) :
    Whole { s.goto p (.writeCheck b) with
      store := s.store.modify b dat
      issued := s.issued ++ [⟨p, s.opCount p, b, dat⟩]
      updates := s.updates ++ [⟨p, s.opCount p, b, dat⟩] } := by
  have hc : (s.pc p).counted = true := by rw [hp]; rfl
  have hcount (q : Pid) (hq : (update s.pc p (.writeCheck b) q).counted = true) :
      (s.pc q).counted = true :=
    imp_update (P := fun x : Pc => x.counted = true) (fun _ => hc) hq
  have hsplit {v w : Update} {us : List Update} (hv : v ∈ us ++ [w]) : v ∈ us ∨ v = w := by
    simpa only [List.mem_append, List.mem_singleton] using hv
  have hnew {w : Update} {us : List Update} : w ∈ us ++ [w] :=
    List.mem_append_right _ (List.mem_singleton_self w)
  refine ⟨fun v hv => ?_, fun g hg u hu => List.mem_append_left _ (h.issued g hg u hu),
    fun u hu => ?_, fun q hq v hv => ?_, fun q hq v hv => ?_,
    fun q hq => h.uncommitted q (hcount q hq), fun u hu v hv hs => ?_, fun g hg u hu v hv hs => ?_⟩
  · rcases hsplit hv with hv | rfl
    · exact h.numbered v hv
    · exact Nat.le_refl _
  · rcases hsplit hu with hu | rfl
    · exact List.mem_append_left _ (h.current u hu)
    · exact hnew
  · have he : q ≠ p := by
      rintro rfl
      simp [St.goto, Pc.entering] at hq
    rcases hsplit hv with hv | rfl
    · exact h.entering q (by simpa only [St.goto, update_of_ne he] using hq) v hv
    · exact fun hpid => absurd hpid.symm he
  · rcases hsplit hv with hv | rfl
    · exact fun hpid hop => List.mem_append_left _ (h.counted q (hcount q hq) v hv hpid hop)
    · exact fun _ _ => hnew
  · rcases hsplit hv with hv | rfl
    · refine List.mem_append_left _ ?_
      rcases hsplit hu with hu | rfl
      · exact h.updates u hu v hv hs
      · exact h.counted p hc v hv hs.1.symm hs.2.symm
    · exact hnew
  · rcases hsplit hv with hv | rfl
    · exact h.groups g hg u hu v hv hs
    · exact absurd hs.2 (h.uncommitted p hc g hg u hu hs.1).ne

theorem Whole.steps (h : Whole s) (hv : Valid s) (hs : Steps L s e s') : Whole s' := by
  cases hs with
  | crash => exact ⟨h.numbered, h.issued, nofun, nofun, nofun, nofun, nofun, h.groups⟩
  | recover hr hs =>
    cases hs <;> exact h.frame rfl rfl rfl rfl (fun _ => id) (fun _ => id)
  | call hr hs =>
    cases hs with
    | beginOp hp => exact h.beginOp hp
    | logWrite hp => exact h.logWrite hp
    | endOp hp => exact h.move rfl hp rfl rfl rfl rfl nofun (fun _ => rfl)
  | step hr hs => exact h.moves (hv.running hr) hs
  | kill hr hp => exact h.move rfl hp rfl rfl rfl rfl (fun _ => rfl) nofun

theorem whole_of_exec (h : Exec (step L) legal (boot d) evs s) : Valid s ∧ Whole s := by
  refine h.invariant (I := fun s => Valid s ∧ Whole s) ⟨(inv_boot d).valid rfl, ?_⟩ ?_
  · constructor <;> exact nofun
  · rintro s e s' ⟨hv, hw⟩ - hs
    exact ⟨hv.steps (steps_of_step hs), hw.steps hv (steps_of_step hs)⟩

/-- A recovery ends, and leaves the blocks of the committed groups, each with all updates of its
operations or none. -/
theorem crash_atomicity (hL : 0 < L.size) (hd : getWord (d L.start) 0 = 0)
    (h : Exec (step L) (fun s e => withinLog L s e) (boot d) evs s) :
    (∀ r, s.recovery = some r → ∃ n s',
      runLegal (step L) (fun _ _ => true) s (List.replicate n .recover) = some s' ∧
        Restored L d s s') ∧
    (∀ s', step L s .recover = .ok s' → s'.recovery = none → Restored L d s s') ∧
    ∀ g ∈ s.groups, ∀ u ∈ g, ∀ v ∈ s.issued, u.SameOp v → v ∈ g := by
  have hs := safe_of_exec hL hd h
  refine ⟨fun r hr => hs.recovery_completes hr, fun s' hstep hn => ?_,
    (whole_of_exec h).2.groups⟩
  cases steps_of_step hstep with
  | recover hr hrec => exact (hs.recovering _ hr).restored hrec hn

/-- A commit of block 100 is cut off after the first `write_head`, as is the recovery. -/
def crashRun : List Event :=
  [.call 0 .beginOp, .step 0, .step 0, .step 0, .call 0 (.logWrite 100 fun _ => 7),
    .step 0, .step 0, .step 0, .step 0, .call 0 .endOp, .step 0, .step 0, .step 0, .step 0,
    .step 0, .step 0, .step 0, .crash, .recover, .crash, .recover, .recover, .recover, .recover]

theorem crash_atomicity_crashRun :
    ∃ s s', runLegal (step ⟨2, 30⟩) (withinLog ⟨2, 30⟩) (boot fun _ _ => 0) crashRun = some s ∧
      step ⟨2, 30⟩ s .recover = .ok s' ∧ s.groups.length = 1 ∧
      s'.store.disk 100 = replay (fun _ _ => 0) s.groups.flatten 100 ∧
      s'.store.disk 100 = fun _ => 7 := by
  have h := exec_of_runLegal (step ⟨2, 30⟩) (withinLog ⟨2, 30⟩) (boot fun _ _ => 0) crashRun rfl
  have hm := (crash_atomicity (L := ⟨2, 30⟩) (by decide) rfl h).2.1 _ rfl rfl
  have hb := hm.disk 100 (by decide)
  exact ⟨_, _, rfl, rfl, rfl, hb, hb.trans rfl⟩

def uncrashed (L : LogArea) (s : St) : Event → Bool
  | .crash => false
  | e => withinLog L s e

theorem uncrashed_within (h : uncrashed L s e = true) : withinLog L s e = true := by
  cases e with
  | crash => cases h
  | _ => exact h

/-- Without crashes every update is committed, or in the group that will be. -/
theorem Steps.issued (hs : Steps L s e s') (hl : uncrashed L s e = true)
    (h : s.recovery = none ∧ s.issued = s.groups.flatten ++ s.updates) :
    s'.recovery = none ∧ s'.issued = s'.groups.flatten ++ s'.updates := by
  cases hs with
  | crash => cases hl
  | recover hr => cases hr.symm.trans h.1
  | kill => exact h
  | call _ hs =>
    refine ⟨hs.recovery.trans h.1, ?_⟩
    cases hs with
    | logWrite => simp [h.2, St.goto]
    | _ => exact h.2
  | step _ hs =>
    refine ⟨hs.recovery.trans h.1, ?_⟩
    cases hs with
    | commitHead =>
      rw [List.flatten_append, List.flatten_singleton, List.append_nil]
      exact h.2
    | _ => exact h.2

/-- When no operation is outstanding and none commits, the disk has every update. -/
theorem idle_durable (hL : 0 < L.size) (hd : getWord (d L.start) 0 = 0)
    (h : Exec (step L) (fun s e => uncrashed L s e) (boot d) evs s) (ho : s.outstanding = 0)
    (hc : s.committing = false) (hb : ¬L.Mem b) :
    s.store.disk b = replay d s.issued b ∧ s.store.view b = s.store.disk b := by
  have hs := safe_of_exec hL hd (h.mono fun _ _ => uncrashed_within)
  obtain ⟨hr, hissued⟩ := h.invariant (I := fun s => s.recovery = none ∧
    s.issued = s.groups.flatten ++ s.updates) ⟨rfl, rfl⟩ fun _ _ _ hi hl hs =>
      (steps_of_step hs).issued hl hi
  have hi := hs.valid.running hr
  have hdur := hs.running hr
  have hnone (p : Pid) : (s.pc p).committed = false := by
    by_contra hp
    have hp := Pc.writes_of_committed (Bool.eq_true_of_not_eq_false hp)
    cases (hi.no_committer hc p).2 (Pc.commits_of_writes hp)
  have hu : s.updates = [] := by
    apply List.eq_nil_iff_forall_not_mem.2
    intro u hu
    rcases hdur.tracked u hu with hm | ⟨p, hp⟩
    · rw [hi.empty ho hc] at hm
      cases hm
    · have hcount : (s.pc p).counted = true := by
        cases hx : s.pc p <;> rw [hx] at hp <;> cases hp <;> rfl
      have hpos := hi.outstanding_pos hcount
      omega
  rw [hu, List.append_nil] at hissued
  rw [hdur.view b hb, hu, hdur.in_place hnone hb, hissued]
  exact ⟨rfl, rfl⟩

theorem idle_durable_commit : ∃ s, runLegal (step ⟨2, 30⟩) (uncrashed ⟨2, 30⟩) (boot fun _ _ => 0)
    (crashRun.take 17 ++ List.replicate 8 (.step 0)) = some s ∧ s.store.disk 100 = fun _ => 7 := by
  have h := exec_of_runLegal (step ⟨2, 30⟩) (uncrashed ⟨2, 30⟩) (boot fun _ _ => 0)
    (crashRun.take 17 ++ List.replicate 8 (.step 0)) rfl
  exact ⟨_, rfl, (idle_durable (by decide) rfl h rfl rfl (by decide)).1.trans rfl⟩

end Xv6.Log
