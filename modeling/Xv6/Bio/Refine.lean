import Xv6.Bio.Invariant

namespace Xv6.Bio
open Lib Function
set_option autoImplicit true

variable {s s' : St} {p q : Pid} {i j : BufId} {n : Nat}

/-- What `bread` of block `n` would find: its valid buffer, or the disk. -/
def St.view (s : St) (n : Nat) : Block :=
  match (List.finRange nBuf).find? fun i =>
    (s.buf i).valid && decide ((s.buf i).dev = rootDev) && decide ((s.buf i).blockno = n) with
  | some i => (s.buf i).data
  | none => s.disk rootDev n

/-- The flat store that the cache stands for. -/
def St.flat (s : St) : Store := ⟨s.view, s.disk rootDev⟩

def Distinct (buf : BufId → Buf) : Prop := ∀ n i j, Names buf n i → Names buf n j → i = j

theorem view_of_cached (h : Distinct s.buf) (hn : Names s.buf n i)
    (hv : (s.buf i).valid = true) : s.view n = (s.buf i).data := by
  rw [St.view]
  split
  · next j hj =>
    have hp := List.find?_some hj
    simp only [Bool.and_eq_true, decide_eq_true_eq] at hp
    rw [h n j i ⟨hp.1.2, hp.2⟩ hn]
  · next hnone =>
    have hi := List.find?_eq_none.1 hnone i (List.mem_finRange i)
    simp [hv, hn.1, hn.2] at hi

theorem view_of_uncached (h : ∀ i, Names s.buf n i → (s.buf i).valid = false) :
    s.view n = s.disk rootDev n := by
  rw [St.view]
  split
  · next i hi =>
    have hp := List.find?_some hi
    simp only [Bool.and_eq_true, decide_eq_true_eq] at hp
    cases hp.1.1.symm.trans (h i ⟨hp.1.2, hp.2⟩)
  · rfl

theorem cached_or (s : St) (n : Nat) :
    (∃ i, Names s.buf n i ∧ (s.buf i).valid = true) ∨
      ∀ i, Names s.buf n i → (s.buf i).valid = false := by
  by_cases h : ∃ i, Names s.buf n i ∧ (s.buf i).valid = true
  · exact .inl h
  · apply Or.inr
    intro i hi
    exact Bool.eq_false_of_not_eq_true fun hv => h ⟨i, hi, hv⟩

theorem flat_setBuf (hv : b.valid = (s.buf i).valid) (hd : b.dev = (s.buf i).dev)
    (hn : b.blockno = (s.buf i).blockno) (ha : b.data = (s.buf i).data) :
    (s.setBuf i b).flat = s.flat := by
  have hv' (j : BufId) := proj_update Buf.valid s.buf hv j
  have hd' (j : BufId) := proj_update Buf.dev s.buf hd j
  have hn' (j : BufId) := proj_update Buf.blockno s.buf hn j
  have ha' (j : BufId) := proj_update Buf.data s.buf ha j
  simp only [St.flat, Store.mk.injEq]
  refine ⟨?_, rfl⟩
  funext n
  simp only [St.view, St.setBuf, hv', hd', hn', ha']

theorem Coherent.not_touched (h : Coherent s) (hh : (s.buf i).holder = none) :
    s.touched i = false := by
  cases ht : s.touched i with
  | false => rfl
  | true => exact absurd hh ((h.ok i).touched ht)

theorem view_setBuf_of_ne (h : Distinct s.buf) (h' : Distinct (s.setBuf i b).buf)
    (hj : Names s.buf n j) (hv : (s.buf j).valid = true) (hji : j ≠ i) :
    (s.setBuf i b).view n = s.view n := by
  have he : (s.setBuf i b).buf j = s.buf j := update_of_ne hji _ _
  rw [view_of_cached h hj hv, view_of_cached h' (i := j) (by rwa [Names, he]) (by rwa [he]), he]

theorem view_setBuf_of_invalid (hb : b.valid = false)
    (h : ∀ j, j ≠ i → Names s.buf n j → (s.buf j).valid = false) :
    (s.setBuf i b).view n = s.disk rootDev n := by
  apply view_of_uncached
  intro j hj
  by_cases hji : j = i
  · subst hji
    simp only [St.setBuf, update_self, hb]
  · simp only [St.setBuf, Names, update_of_ne hji] at hj ⊢
    exact h j hji hj

theorem Coherent.flat_take (h : Coherent s) (h' : Distinct (s.setBuf i b).buf)
    (hb : b.valid = false) (hd : (s.buf i).dirty = false) (hh : (s.buf i).holder = none) :
    (s.setBuf i b).flat = s.flat := by
  simp only [St.flat, Store.mk.injEq]
  refine ⟨?_, rfl⟩
  funext m
  rcases cached_or s m with ⟨j, hj, hv⟩ | hnone
  · by_cases hji : j = i
    · subst hji
      rw [view_of_cached h.unique hj hv, (h.ok j).clean hv hd (h.not_touched hh), hj.2]
      apply view_setBuf_of_invalid hb
      intro k hkj hk
      exact absurd (h.unique m k j hk hj) hkj
    · exact view_setBuf_of_ne h.unique h' hj hv hji
  · rw [view_of_uncached hnone]
    exact view_setBuf_of_invalid hb fun j _ => hnone j

theorem view_setBuf (h : Distinct s.buf) (h' : Distinct (s.setBuf i b).buf)
    (hn : Names s.buf n i) (hd : b.dev = (s.buf i).dev) (hbn : b.blockno = (s.buf i).blockno)
    (hb : b.valid = true) : (s.setBuf i b).view = update s.view n b.data := by
  have hi : (s.setBuf i b).buf i = b := update_self ..
  funext m
  by_cases hm : m = n
  · subst hm
    rw [update_self, view_of_cached h' (i := i), hi]
    · exact ⟨by rw [hi, hd, hn.1], by rw [hi, hbn, hn.2]⟩
    · rw [hi, hb]
  · rw [update_of_ne hm]
    rcases cached_or s m with ⟨j, hj, hv⟩ | hnone
    · apply view_setBuf_of_ne h h' hj hv
      rintro rfl
      exact hm (hj.2.symm.trans hn.2)
    · rw [view_of_uncached hnone]
      apply view_of_uncached
      intro j hj
      by_cases hji : j = i
      · subst hji
        rw [Names, hi, hbn, hn.2] at hj
        exact absurd hj.2.symm hm
      · simp only [St.setBuf, Names, update_of_ne hji] at hj ⊢
        exact hnone j hj

/-- The operation on the flat store that an event amounts to. -/
def flatStep (s : St) : Event → Store
  | .call _ (.modify i d) => s.flat.modify (s.buf i).blockno d
  | .call _ _ => s.flat
  | .step p =>
    match s.pc p with
    | .writeOut i => s.flat.bwrite (s.buf i).blockno
    | _ => s.flat

theorem Coherent.flat_modify (h : Coherent s)
    (h' : Distinct (s.setBuf i { s.buf i with data := d }).buf)
    (hv : (s.buf i).valid = true) :
    (s.setBuf i { s.buf i with data := d }).flat = s.flat.modify (s.buf i).blockno d := by
  simp only [St.flat, Store.modify, Store.mk.injEq]
  exact ⟨view_setBuf h.unique h' ⟨(h.ok i).valid hv, rfl⟩ rfl rfl hv, rfl⟩

theorem Coherent.flat_fill (h : Coherent s) (h' : Distinct (s.iderw i).buf)
    (hn : Names s.buf n i) (hv : (s.buf i).valid = false) : (s.iderw i).flat = s.flat := by
  have hd : (s.buf i).dirty = false := by
    cases hd : (s.buf i).dirty with
    | false => rfl
    | true => cases hv.symm.trans ((h.ok i).dirty hd)
  have hs : s.iderw i = s.setBuf i
      { s.buf i with valid := true, data := s.disk (s.buf i).dev (s.buf i).blockno } := by
    simp only [St.iderw, hd, Bool.false_eq_true, ↓reduceIte]
  have hview : s.view n = s.disk (s.buf i).dev (s.buf i).blockno := by
    rw [hn.1, hn.2]
    apply view_of_uncached
    intro j hj
    rw [h.unique n j i hj hn, hv]
  rw [hs] at h' ⊢
  simp only [St.flat, Store.mk.injEq]
  refine ⟨?_, rfl⟩
  rw [view_setBuf h.unique h' hn rfl rfl rfl, ← hview, update_eq_self]

/-- Writing a dirty buffer out changes nothing but the disk. -/
theorem Coherent.flat_writeOut (h : Coherent s) (hd : (s.buf i).dirty = true) :
    (s.iderw i).flat = s.flat.bwrite (s.buf i).blockno := by
  have hv := (h.ok i).dirty hd
  have hn : Names s.buf (s.buf i).blockno i := ⟨(h.ok i).valid hv, rfl⟩
  have hs : (s.setBuf i { s.buf i with valid := true, dirty := false }).view = s.view :=
    congrArg Store.view (flat_setBuf (s := s) (i := i)
      (b := { s.buf i with valid := true, dirty := false }) hv.symm rfl rfl rfl)
  have hdisk : (s.iderw i).disk rootDev =
      update (s.disk rootDev) (s.buf i).blockno (s.view (s.buf i).blockno) := by
    rw [view_of_cached h.unique hn hv]
    simp only [St.iderw, hd, ↓reduceIte, hn.1, update_self]
  simp only [St.flat, Store.bwrite, Store.mk.injEq]
  refine ⟨?_, hdisk⟩
  rw [← hs]
  funext m
  simp only [St.iderw, hd, ↓reduceIte, hn.1]
  rw [St.view, St.view]
  split
  · next he =>
    simp only [St.setBuf] at he ⊢
    rw [he]
  · next he =>
    simp only [St.setBuf] at he ⊢
    rw [he, update_self, update_of_ne]
    rintro rfl
    have hi := List.find?_eq_none.1 he i (List.mem_finRange i)
    simp at hi

theorem Inv.flat_calls (h : Inv s) (hp : s.pc p = .idle) (hs : Calls s p c s') :
    s'.flat = flatStep s (.call p c) := by
  have h' := h.calls hp hs
  cases hs with
  | bread => rfl
  | modify hh =>
    have hv := h.valid_of_held hh hp nofun
    exact h.coherent.flat_modify h'.coherent.unique hv
  | logWrite hh => rfl
  | @bwrite i hh => exact flat_setBuf (b := { s.buf i with dirty := true }) rfl rfl rfl rfl
  | @brelse i hh ht => exact flat_setBuf (b := { s.buf i with holder := none }) rfl rfl rfl rfl

theorem Inv.flat_moves (h : Inv s) (hs : Moves s p s') : s'.flat = flatStep s (.step p) := by
  have h' := h.moves hs
  have hat := h.at_ p
  cases hs with
  | @hit dev n k i hp =>
    rw [flatStep, hp]
    exact flat_setBuf (b := { s.buf i with refcnt := (s.buf i).refcnt + 1 }) rfl rfl rfl rfl
  | take hp =>
    rw [hp] at hat
    obtain ⟨rfl, hn, hz, hd⟩ := hat
    rw [flatStep, hp]
    exact h.coherent.flat_take h'.coherent.unique rfl hd (h.counted.holder_none hz)
  | @lockBuf dev n i hp hh =>
    rw [flatStep, hp]
    exact flat_setBuf (b := { s.buf i with holder := some p }) rfl rfl rfl rfl
  | fill hp hv =>
    rw [hp] at hat
    rw [flatStep, hp]
    exact h.coherent.flat_fill h'.coherent.unique hat.2.1 hv
  | writeOut hp =>
    rw [hp] at hat
    rw [flatStep, hp]
    exact h.coherent.flat_writeOut hat.2
  | @logWrite i hp =>
    rw [flatStep, hp]
    exact flat_setBuf (b := { s.buf i with dirty := true }) rfl rfl rfl rfl
  | @relBody i hp =>
    rw [flatStep, hp]
    exact flat_setBuf (b := { s.buf i with refcnt := (s.buf i).refcnt - 1 }) rfl rfl rfl rfl
  | getAcquire hp | miss hp | notCached hp | unused hp | inUse hp | getRelease hp | filled hp
  | relAcquire hp | relRelease hp =>
    rw [flatStep, hp]
    rfl

/-- `bread` returns the buffer of its block, with the data last left there. -/
theorem Inv.bread_returns (h : Inv s) (hp : s.pc p = .fill dev n i)
    (hs : step s (.step p) = .ok s') :
    s'.pc p = .idle ∧ Names s'.buf n i ∧ (s'.buf i).holder = some p ∧
      (s'.buf i).valid = true ∧ (s'.buf i).data = s.left n := by
  have hat := h.at_ p
  rw [hp] at hat
  obtain ⟨rfl, hn, hh, hleft⟩ := hat
  simp only [step, procStep, hp] at hs
  split at hs
  · next hv =>
    cases hs
    exact ⟨update_self .., hn, hh, hv, hleft hv⟩
  · next hv =>
    have hv' := Bool.eq_false_of_not_eq_true hv
    have hd : (s.buf i).dirty = false :=
      Bool.eq_false_of_not_eq_true fun hd => hv ((h.coherent.ok i).dirty hd)
    have hu : s.disk rootDev n = s.left n := by
      apply h.coherent.uncached
      intro j hj
      rw [h.coherent.unique n j i hj hn, hv']
    cases hs
    simp only [St.iderw, hd, Bool.false_eq_true, ↓reduceIte, St.goto, St.setBuf, Names,
      update_self]
    exact ⟨trivial, hn, hh, trivial, by rw [hn.1, hn.2]; exact hu⟩

theorem bcache_refines_store (h : Exec step (fun s e => legal s e) (boot disk) evs s) :
    (∀ n i j, Names s.buf n i → Names s.buf n j → i = j) ∧
    (∀ n i j p q, Names s.buf n i → Names s.buf n j → (s.buf i).holder = some p →
      (s.buf j).holder = some q → i = j ∧ p = q) ∧
    (∀ p dev n i s', s.pc p = .fill dev n i → step s (.step p) = .ok s' →
      s'.pc p = .idle ∧ Names s'.buf n i ∧ (s'.buf i).holder = some p ∧
        (s'.buf i).valid = true ∧ (s'.buf i).data = s.left n) ∧
    (∀ n ∈ s.unwritten, ∃ i, Names s.buf n i ∧ (s.buf i).dirty = true ∧
      s.view n = (s.buf i).data ∧ ((s.buf i).holder = none → (s.buf i).data = s.left n)) ∧
    ∀ e s', legal s e = true → step s e = .ok s' → s'.flat = flatStep s e := by
  have hi := inv_of_exec h
  refine ⟨hi.coherent.unique, ?_, ?_, ?_, ?_⟩
  · intro n i j p q hn hm hp hq
    have hij := hi.coherent.unique n i j hn hm
    subst hij
    exact ⟨rfl, Option.some.inj (hp.symm.trans hq)⟩
  · intro p dev n i s' hp hs
    exact hi.bread_returns hp hs
  · intro n hn
    obtain ⟨i, hni, hd⟩ := hi.coherent.pinned n hn
    have hv := (hi.coherent.ok i).dirty hd
    refine ⟨i, hni, hd, view_of_cached hi.coherent.unique hni hv, ?_⟩
    intro hh
    rw [(hi.coherent.ok i).quiet hv hh, hni.2]
  · intro e s' hl hs
    cases e with
    | call p c =>
      obtain ⟨hp, hc⟩ := calls_of_callStep hs hl
      exact hi.flat_calls hp hc
    | step p => exact hi.flat_moves (moves_of_procStep hs)

/-- Process 0 reads block 5, changes and logs it; process 1 reads it next. -/
def readRun : List Event :=
  .call 0 (.bread 1 5) :: List.replicate 37 (.step 0) ++
    [.call 0 (.modify 0 fun _ => 7), .call 0 (.logWrite 0), .step 0, .call 0 (.brelse 0),
      .step 0, .step 0, .step 0, .call 1 (.bread 1 5), .step 1, .step 1, .step 1, .step 1]

theorem bcache_refines_store_readRun :
    ∃ s s', runLegal step legal (boot fun _ _ _ => 0) readRun = some s ∧
      s.pc 1 = .fill 1 5 0 ∧ step s (.step 1) = .ok s' ∧ 5 ∈ s.unwritten ∧
      (s'.buf 0).data = fun _ => 7 := by
  have h := exec_of_runLegal step legal (boot fun _ _ _ => 0) readRun rfl
  have hr := (bcache_refines_store h).2.2.1 1 1 5 0 _ rfl rfl
  exact ⟨_, _, rfl, rfl, rfl, by decide, hr.2.2.2.2.trans rfl⟩

end Xv6.Bio
