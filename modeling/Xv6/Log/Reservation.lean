import Xv6.Log.StateMachine
import Mathlib.Algebra.Order.BigOperators.Group.Finset

namespace Xv6.Log
open Lib Function
set_option autoImplicit true

/-- The log of a mkfs disk: `sb.logstart = 2`, `sb.nlog = LOGSIZE`. -/
def mkfsLog : LogArea := ⟨2, logSize⟩

/-- No operation logs more than `MAXOPBLOCKS` distinct blocks, and nothing crashes. -/
def withinQuota (s : St) : Event → Bool
  | .call p (.logWrite b _) => decide ((insert b.toNat (s.opBlocks p)).card ≤ maxOpBlocks)
  | .crash => false
  | _ => true

/-- What an operation may still add to the header. -/
def quota (s : St) (p : Pid) : Nat := maxOpBlocks - (s.opBlocks p).card

/-- The header has room for all that running operations may add. -/
structure Reserved (s : St) : Prop where
  fresh : ∀ p, (s.pc p).entering = true → s.opBlocks p = ∅
  inHeader : ∀ p, (s.pc p).counted = true → s.opBlocks p ⊆ s.lh.toFinset
  pending : ∀ p b, (s.pc p).pending = some b → (insert b (s.opBlocks p)).card ≤ maxOpBlocks
  room : ∀ F : Finset Pid, (∀ p ∈ F, (s.pc p).counted = true) →
    s.lh.length + ∑ p ∈ F, quota s p ≤ logSize

theorem reserved_boot (d : Nat → Block) : Reserved (boot d) where
  fresh := fun _ _ => rfl
  inHeader := fun _ h => by cases h
  pending := fun _ _ h => by cases h
  room := fun F hF => by
    have hF' : F = ∅ := Finset.eq_empty_of_forall_notMem fun p hp => by cases hF p hp
    simp [hF', boot]

theorem Reserved.frame (h : Reserved s) (hl : s'.lh = s.lh) (ho : s'.opBlocks = s.opBlocks)
    (he : ∀ q, (s'.pc q).entering = true → (s.pc q).entering = true)
    (hc : ∀ q, (s'.pc q).counted = true → (s.pc q).counted = true)
    (hw : ∀ q b, (s'.pc q).pending = some b → (s.pc q).pending = some b) : Reserved s' where
  fresh := fun p hp => by rw [ho, h.fresh p (he p hp)]
  inHeader := fun p hp => by rw [ho, hl]; exact h.inHeader p (hc p hp)
  pending := fun p b hp => by rw [ho]; exact h.pending p b (hw p b hp)
  room := fun F hF => by
    simp only [quota, hl, ho]
    exact h.room F fun p hp => hc p (hF p hp)

theorem Reserved.move (h : Reserved s) (hpc : s'.pc = update s.pc p x)
    (hp : s.pc p = y) (hl : s'.lh = s.lh) (ho : s'.opBlocks = s.opBlocks)
    (he : x.entering = true → y.entering = true) (hc : x.counted = true → y.counted = true)
    (hw : ∀ b, x.pending = some b → y.pending = some b) : Reserved s' := by
  subst hp
  apply h.frame hl ho
  · intro q hq
    rw [hpc] at hq
    exact imp_update (P := fun x : Pc => x.entering = true) he hq
  · intro q hq
    rw [hpc] at hq
    exact imp_update (P := fun x : Pc => x.counted = true) hc hq
  · intro q b hq
    rw [hpc] at hq
    exact imp_update (P := fun x : Pc => x.pending = some b) (hw b) hq

theorem Reserved.wakeup (h : Reserved s) (he : x.entering = false) (hc : x.counted = false)
    (hw : x.pending = none) :
    Reserved { s with pc := update (roused s.pc) p x } := by
  have hr : Reserved { s with pc := roused s.pc } := by
    refine h.frame rfl rfl (fun q hq => ?_) (fun q hq => ?_) (fun q b hq => ?_)
    · exact (roused_flag _ rfl s.pc q).symm.trans hq
    · exact (roused_flag _ rfl s.pc q).symm.trans hq
    · change (roused s.pc q).pending = some b at hq
      rw [roused] at hq
      split at hq
      · cases hq
      · exact hq
  exact hr.move (y := roused s.pc p) rfl rfl rfl rfl (by simp [he]) (by simp [hc])
    (by simp [hw])

theorem Reserved.enter (h : Reserved s) (hi : Inv s) (hp : s.pc p = .beginTest)
    (ha : admits s = true) :
    Reserved { s.goto p .beginRelease with outstanding := s.outstanding + 1 } := by
  have hfresh := h.fresh p (by rw [hp]; rfl)
  obtain ⟨n, ⟨G, hG, hcard⟩, ho⟩ := hi.counted
  unfold admits at ha
  simp only [Bool.and_eq_true, decide_eq_true_eq, ho] at ha
  refine ⟨fun q hq => h.fresh q ?_, fun q hq => ?_, fun q b hq => h.pending q b ?_,
    fun F hF => ?_⟩
  · exact imp_update (x := .beginRelease) (P := fun x : Pc => x.entering = true) nofun hq
  · by_cases he : q = p
    · subst he
      change s.opBlocks q ⊆ _
      rw [hfresh]
      exact Finset.empty_subset _
    · refine h.inHeader q ?_
      simpa [St.goto, he] using hq
  · exact imp_update (x := .beginRelease) (P := fun x : Pc => x.pending = some b) nofun hq
  · have hsub : F.erase p ⊆ G := fun q hq => by
      obtain ⟨hne, hq⟩ := Finset.mem_erase.1 hq
      have hc := hF q hq
      exact (hG q).2 (by simpa [St.goto, hne] using hc)
    have hF' : F.card ≤ n + 1 := by
      have h₁ := Finset.card_le_card hsub
      have h₂ := Finset.pred_card_le_card_erase (s := F) (a := p)
      omega
    have hsum : ∑ q ∈ F, quota s q ≤ F.card * maxOpBlocks :=
      Finset.sum_le_card_nsmul F _ _ fun q _ => Nat.sub_le _ _
    change s.lh.length + ∑ q ∈ F, quota s q ≤ logSize
    simp only [maxOpBlocks, logSize] at ha hsum ⊢
    omega

theorem Reserved.quota_pos (h : Reserved s) (hc : (s.pc p).counted = true)
    (hp : (s.pc p).pending = some b) (hb : b ∉ s.lh) : b ∉ s.opBlocks p ∧ 0 < quota s p := by
  have hb' : b ∉ s.opBlocks p := fun hm => hb (List.mem_toFinset.1 (h.inHeader p hc hm))
  have hcard := h.pending p b hp
  rw [Finset.card_insert_of_notMem hb'] at hcard
  simp only [quota]
  exact ⟨hb', by omega⟩

theorem Reserved.room_one (h : Reserved s) (hc : (s.pc p).counted = true) :
    s.lh.length + quota s p ≤ logSize := by
  have hr := h.room {p} fun q hq => by rw [Finset.mem_singleton.1 hq]; exact hc
  simpa only [Finset.sum_singleton] using hr

theorem Reserved.logWrite (h : Reserved s) (hp : s.pc p = .writeBody b) :
    Reserved { s.goto p .writeRelease with
      lh := if b ∈ s.lh then s.lh else s.lh ++ [b]
      opBlocks := update s.opBlocks p (insert b (s.opBlocks p))
      logged := insert b s.logged } := by
  have hc : (s.pc p).counted = true := by rw [hp]; rfl
  have hw : (s.pc p).pending = some b := by rw [hp]; rfl
  have hcount (q : Pid) (hq : (update s.pc p .writeRelease q).counted = true) :
      (s.pc q).counted = true :=
    imp_update (x := .writeRelease) (P := fun x : Pc => x.counted = true) (fun _ => hc) hq
  have hsub : s.lh.toFinset ⊆ (if b ∈ s.lh then s.lh else s.lh ++ [b]).toFinset := by
    split
    · exact Finset.Subset.refl _
    · intro c hm
      simp only [List.mem_toFinset, List.mem_append] at hm ⊢
      exact .inl hm
  have hmem : b ∈ (if b ∈ s.lh then s.lh else s.lh ++ [b]).toFinset := by
    split
    · next hb => exact List.mem_toFinset.2 hb
    · simp
  have hother (q : Pid) (hq : q ≠ p) :
      update s.opBlocks p (insert b (s.opBlocks p)) q = s.opBlocks q :=
    update_of_ne hq _ _
  refine ⟨fun q hq => ?_, fun q hq => ?_, fun q c hq => ?_, fun F hF => ?_⟩
  · by_cases he : q = p
    · subst he
      simp [St.goto, Pc.entering] at hq
    · change update s.opBlocks p _ q = ∅
      rw [hother q he]
      exact h.fresh q (by simpa [St.goto, he] using hq)
  · change update s.opBlocks p _ q ⊆ _
    by_cases he : q = p
    · subst he
      rw [update_self]
      exact Finset.insert_subset hmem ((h.inHeader q hc).trans hsub)
    · rw [hother q he]
      exact (h.inHeader q (hcount q hq)).trans hsub
  · by_cases he : q = p
    · subst he
      simp [St.goto, Pc.pending] at hq
    · change (insert c (update s.opBlocks p _ q)).card ≤ _
      rw [hother q he]
      exact h.pending q c (by simpa [St.goto, he] using hq)
  · have hF' : F ⊆ insert p (F.erase p) := fun q hq => by
      by_cases he : q = p <;> simp [he, hq]
    have hr := h.room (insert p (F.erase p)) fun q hq => by
      rcases Finset.mem_insert.1 hq with he | hq
      · rw [he]; exact hc
      · exact hcount q (hF q (Finset.mem_of_mem_erase hq))
    have hrest : ∑ q ∈ F.erase p, (maxOpBlocks -
        (update s.opBlocks p (insert b (s.opBlocks p)) q).card) =
        ∑ q ∈ F.erase p, quota s q :=
      Finset.sum_congr rfl fun q hq => by rw [hother q (Finset.ne_of_mem_erase hq)]; rfl
    refine le_trans (Nat.add_le_add_left (Finset.sum_le_sum_of_subset hF') _) ?_
    simp only [quota, Finset.sum_insert (Finset.notMem_erase p F), update_self] at hr ⊢
    rw [hrest]
    simp only [quota]
    by_cases hb : b ∈ s.lh
    · have hle := Finset.card_le_card (Finset.subset_insert b (s.opBlocks p))
      simp only [hb, ↓reduceIte]
      omega
    · obtain ⟨hb', hpos⟩ := h.quota_pos hc hw hb
      simp only [hb, ↓reduceIte, List.length_append, List.length_singleton,
        Finset.card_insert_of_notMem hb']
      simp only [quota] at hpos
      omega

theorem Reserved.clear (h : Reserved s) (hi : Inv s) (hp : s.pc p = .clear) :
    Reserved { s.goto p .eraseHead with lh := [], logged := ∅ } := by
  have hn := hi.not_counted (hi.committing_of (p := p) (by rw [hp]; rfl))
  have hn' (q : Pid) : (update s.pc p .eraseHead q).counted = false :=
    (proj_update Pc.counted s.pc (by rw [hn]; rfl) q).trans (hn q)
  refine ⟨fun q hq => h.fresh q ?_, fun q hq => ?_, fun q b hq => h.pending q b ?_,
    fun F hF => ?_⟩
  · exact imp_update (x := .eraseHead) (P := fun x : Pc => x.entering = true) nofun hq
  · cases (hn' q).symm.trans hq
  · exact imp_update (x := .eraseHead) (P := fun x : Pc => x.pending = some b) nofun hq
  · have hF' : F = ∅ := Finset.eq_empty_of_forall_notMem fun q hq => by
      cases (hn' q).symm.trans (hF q hq)
    simp [hF']

theorem Reserved.moves (h : Reserved s) (hi : Inv s) (hs : Moves L s p s') : Reserved s' := by
  cases hs with
  | enter hp ha => exact h.enter hi hp ha
  | writeBody hp => exact h.logWrite hp
  | clear hp => exact h.clear hi hp
  | endWakeup => exact h.wakeup rfl rfl rfl
  | doneWakeup => exact h.wakeup rfl rfl rfl
  | beginAcquire hp | refuse hp | sleepAcquire hp | sleepRelease hp | sleepSched hp =>
    exact h.move rfl hp rfl rfl (fun _ => rfl) nofun nofun
  | writeCheck hp | writeAcquire hp =>
    exact h.move rfl hp rfl rfl nofun (fun _ => rfl) fun _ hb => hb
  | beginRelease hp | writeRelease hp | endAcquire hp =>
    exact h.move rfl hp rfl rfl nofun (fun _ => rfl) nofun
  | @endRelease c hp =>
    cases c with
    | false => exact h.move rfl hp rfl rfl nofun nofun nofun
    | true => exact h.move rfl hp rfl rfl nofun nofun nofun
  | endLast hp | endOther hp | commit hp | commitNothing hp | writeLog hp | writeLogDone hp
  | commitHead hp | installTrans hp | installTransDone hp | eraseHead hp | doneAcquire hp
  | doneBody hp | doneRelease hp => exact h.move rfl hp rfl rfl nofun nofun nofun

theorem Reserved.calls (h : Reserved s) (hs : Calls s p c s')
    (hq : withinQuota s (.call p c) = true) : Reserved s' := by
  cases hs with
  | beginOp hp =>
    have hne (q : Pid) (hc : (update s.pc p .beginAcquire q).counted = true) :
        q ≠ p ∧ (s.pc q).counted = true := by
      by_cases he : q = p
      · subst he
        rw [update_self] at hc
        cases hc
      · rw [update_of_ne he] at hc
        exact ⟨he, hc⟩
    have hblocks (q : Pid) (he : q ≠ p) : update s.opBlocks p ∅ q = s.opBlocks q :=
      update_of_ne he _ _
    refine ⟨fun q hq => ?_, fun q hq => ?_, fun q b hq => ?_, fun F hF => ?_⟩
    · change update s.opBlocks p ∅ q = ∅
      by_cases he : q = p
      · rw [he, update_self]
      · rw [hblocks q he]
        exact h.fresh q (by simpa [St.goto, he] using hq)
    · obtain ⟨he, hc⟩ := hne q hq
      change update s.opBlocks p ∅ q ⊆ _
      rw [hblocks q he]
      exact h.inHeader q hc
    · by_cases he : q = p
      · subst he
        simp [St.goto, Pc.pending] at hq
      · change (insert b (update s.opBlocks p ∅ q)).card ≤ _
        rw [hblocks q he]
        exact h.pending q b (by simpa [St.goto, he] using hq)
    · rw [Finset.sum_congr rfl fun q hq => show quota _ q = quota s q from
        congrArg (maxOpBlocks - Finset.card ·) (hblocks q (hne q (hF q hq)).1)]
      exact h.room F fun q hq => (hne q (hF q hq)).2
  | @logWrite b d hp =>
    have hcount (q : Pid)
        (hc : (update s.pc p (.writeCheck b.toNat) q).counted = true) :
        (s.pc q).counted = true :=
      imp_update (P := fun x : Pc => x.counted = true) (fun _ => by rw [hp]; rfl) hc
    refine ⟨fun q hq => h.fresh q ?_, fun q hq => h.inHeader q (hcount q hq), fun q c hw => ?_,
      fun F hF => h.room F fun q hq => hcount q (hF q hq)⟩
    · exact imp_update (x := .writeCheck b.toNat) (P := fun x : Pc => x.entering = true) nofun hq
    · change (insert c (s.opBlocks q)).card ≤ _
      by_cases he : q = p
      · subst he
        simp only [St.goto, update_self, Pc.pending, Option.some.injEq] at hw
        subst hw
        simpa only [withinQuota, decide_eq_true_eq] using hq
      · exact h.pending q c (by simpa [St.goto, he] using hw)
  | endOp hp => exact h.move rfl hp rfl rfl nofun (fun _ => rfl) nofun

theorem reserved_of_exec (h : Exec (step L) (fun s e => withinQuota s e) (boot d) evs s) :
    s.recovery = none ∧ Reserved s := by
  have hv : Valid s ∧ s.recovery = none ∧ Reserved s := by
    refine h.invariant (I := fun s => Valid s ∧ s.recovery = none ∧ Reserved s)
      ⟨(inv_boot d).valid rfl, rfl, reserved_boot d⟩ ?_
    rintro s e s' ⟨hv, hr, hi⟩ hq hs
    have hs' := steps_of_step hs
    refine ⟨hv.steps hs', ?_⟩
    cases hs' with
    | crash => cases hq
    | recover hr' => cases hr.symm.trans hr'
    | call _ hc => exact ⟨hc.recovery.trans hr, hi.calls hc hq⟩
    | step _ hm => exact ⟨hm.recovery.trans hr, hi.moves (hv.running hr) hm⟩
    | kill _ hp => exact ⟨hr, hi.move rfl hp rfl rfl (fun _ => rfl) nofun nofun⟩
  exact hv.2

theorem tooBig_iff :
    procStep L s p = .error (.panic "too big a transaction") ↔
      ∃ b, s.pc p = .writeCheck b ∧ (logSize ≤ s.lh.length ∨ L.size ≤ s.lh.length + 1) := by
  constructor
  · intro h
    have hf := stops_of_procStep h
    generalize he : Fault.panic "too big a transaction" = f at hf
    cases hf with
    | tooBig hp hn => exact ⟨_, hp, hn⟩
    | _ => simp at he
  · rintro ⟨b, hp, hn⟩
    simp only [procStep, hp, hn, ↓reduceIte]

theorem Reserved.no_overflow (h : Reserved s) (hp : s.pc p = .writeBody b) :
    s.lh.idxOf b < logSize := by
  have hc : (s.pc p).counted = true := by rw [hp]; rfl
  have hroom := h.room_one hc
  by_cases hb : b ∈ s.lh
  · have hi : s.lh.idxOf b < s.lh.length := List.idxOf_lt_length_iff.2 hb
    omega
  · have hpos := (h.quota_pos hc (by rw [hp]; rfl) hb).2
    rw [List.idxOf_eq_length hb]
    omega

/-- `log_write` comes while the group has logged fewer than `LOGSIZE - 1` blocks. -/
def RoomFor (s : St) : Event → Prop
  | .step p => ∀ b, s.pc p = .writeCheck b → s.logged.card < logSize - 1
  | _ => True

/-- On the log of mkfs, `log_write` panics exactly with `LOGSIZE - 1` blocks logged, and never
overruns the header. -/
theorem log_reservation (h : Exec (step mkfsLog) (fun s e => withinQuota s e) (boot d) evs s)
    (e : Event) :
    step mkfsLog s e ≠ .error .overflow ∧
      (step mkfsLog s e ≠ .error (.panic "too big a transaction") ↔ RoomFor s e) := by
  obtain ⟨hr, hi⟩ := reserved_of_exec h
  have hv := (valid_of_exec h).running hr
  have hcard : s.logged.card = s.lh.length := by
    rw [← hv.logged, List.toFinset_card_of_nodup hv.nodup]
  cases e with simp only [step, hr, ↓reduceIte, RoomFor]
  | crash => simp
  | recover => simp
  | call p c =>
    refine ⟨fun he => ?_, fun _ => trivial, fun _ he => ?_⟩ <;> cases callStep_blocked he
  | step p =>
    refine ⟨fun he => ?_, ?_⟩
    · cases stops_of_procStep he with
      | overflow hp hb => exact absurd (hi.no_overflow hp) (Nat.not_lt_of_ge hb)
    · rw [ne_eq, tooBig_iff, hcard]
      simp only [mkfsLog, not_exists, not_and, not_or]
      refine forall_congr' fun b => imp_congr_right fun _ => ?_
      simp only [logSize, maxOpBlocks]
      omega
  | kill p => split <;> simp

def opRun (p : Pid) (bs : List UInt32) : List Event :=
  bs.flatMap fun b =>
    [.call p (.logWrite b fun _ => 0), .step p, .step p, .step p, .step p]

theorem log_reservation_opRun :
    ∃ s, runLegal (step mkfsLog) withinQuota (boot fun _ _ => 0)
        (.call 0 .beginOp :: .step 0 :: .step 0 :: .step 0 :: opRun 0 [100, 101] ++
          [.call 0 (.logWrite 102 fun _ => 0)]) = some s ∧
      s.pc 0 = .writeCheck 102 ∧ s.lh = [100, 101] ∧
      step mkfsLog s (.step 0) ≠ .error (.panic "too big a transaction") := by
  have h := exec_of_runLegal (step mkfsLog) withinQuota (boot fun _ _ => 0)
    (.call 0 .beginOp :: .step 0 :: .step 0 :: .step 0 :: opRun 0 [100, 101] ++
      [.call 0 (.logWrite 102 fun _ => 0)]) rfl
  exact ⟨_, rfl, rfl, rfl, (log_reservation h (.step 0)).2.2 fun _ _ => by decide⟩

def fullQuotaRun : List Event :=
  ([0, 1, 2].flatMap fun p => [.call p .beginOp, .step p, .step p, .step p]) ++
    opRun 0 [100, 101, 102, 103, 104, 105, 106, 107, 108, 109] ++
    opRun 1 [110, 111, 112, 113, 114, 115, 116, 117, 118, 119] ++
    opRun 2 [120, 121, 122, 123, 124, 125, 126, 127, 128] ++
    [.call 2 (.logWrite 129 fun _ => 0)]

theorem fullQuotaRun_panics :
    ∃ s, runLegal (step mkfsLog) withinQuota (boot fun _ _ => 0) fullQuotaRun = some s ∧
      step mkfsLog s (.step 2) = .error (.panic "too big a transaction") := by
  have h : ((runLegal (step mkfsLog) withinQuota (boot fun _ _ => 0) fullQuotaRun).any fun s =>
      match step mkfsLog s (.step 2) with
      | .error f => f == .panic "too big a transaction"
      | .ok _ => false) = true := by
    decide +kernel
  obtain ⟨s, hs, hf⟩ := (Option.any_eq_true _ _).1 h
  refine ⟨s, hs, ?_⟩
  split at hf
  · next he => rw [he, beq_iff_eq.1 hf]
  · cases hf

end Xv6.Log
