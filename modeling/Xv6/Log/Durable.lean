import Xv6.Log.StateMachine

namespace Xv6.Log
open Lib Function
set_option autoImplicit true

/-- The blocks after the updates `us`, applied in order. -/
def replay (d : Nat → Block) (us : List Update) : Nat → Block :=
  us.foldl (fun d u => update d u.block u.data) d

theorem replay_append (d : Nat → Block) (us vs : List Update) :
    replay d (us ++ vs) = replay (replay d us) vs :=
  List.foldl_append

theorem replay_of_notMem (d : Nat → Block) (h : b ∉ us.map Update.block) :
    replay d us b = d b := by
  induction us generalizing d with
  | nil => rfl
  | cons u us ih =>
    simp only [List.map_cons, List.mem_cons, not_or] at h
    exact (ih _ h.2).trans (update_of_ne h.1 _ _)

/-- What the disk has to hold in the end: the groups, applied to the first disk. -/
def St.base (s : St) (d : Nat → Block) : Nat → Block := replay d s.groups.flatten

/-- Recovery from `disk` yields `base` outside the log. -/
structure Recoverable (L : LogArea) (disk base : Nat → Block) : Prop where
  short : (readHead (disk L.start)).length ≤ logSize ∧ (readHead (disk L.start)).length < L.size
  homes : ∀ b ∈ readHead (disk L.start), ¬L.Mem b
  copies : ∀ i b, (readHead (disk L.start))[i]? = some b → disk (L.block i) = base b
  rest : ∀ b, ¬L.Mem b → b ∉ readHead (disk L.start) → disk b = base b

theorem recoverable_of_empty (hL : 0 < L.size) (hd : readHead (disk L.start) = [])
    (h : ∀ b, ¬L.Mem b → disk b = base b) : Recoverable L disk base where
  short := by simp [hd, hL]
  homes := by simp [hd]
  copies := by simp [hd]
  rest := fun b hb _ => h b hb

theorem Recoverable.lt_size (h : Recoverable L disk base)
    (hi : (readHead (disk L.start))[i]? = some b) : i + 1 < L.size := by
  obtain ⟨hi, -⟩ := List.getElem?_eq_some_iff.1 hi
  have hs := h.short.2
  omega

theorem Recoverable.install (h : Recoverable L disk base) (hb : ¬L.Mem b) :
    Recoverable L (update disk b (base b)) base := by
  have hL : 0 < L.size := by
    have hs := h.short.2
    omega
  have hstart : update disk b (base b) L.start = disk L.start :=
    update_of_ne (by rintro rfl; exact hb (L.mem_start hL)) _ _
  refine ⟨by rw [hstart]; exact h.short, by rw [hstart]; exact h.homes, fun i c hi => ?_,
    fun c hc hn => ?_⟩
  · rw [hstart] at hi
    rw [update_of_ne]
    · exact h.copies i c hi
    · rintro rfl
      exact hb (L.mem_block (h.lt_size hi))
  · rw [hstart] at hn
    by_cases he : c = b
    · rw [he, update_self]
    · rw [update_of_ne he]
      exact h.rest c hc hn

/-- The first `write_head` has reached the disk. -/
def Pc.committed : Pc → Bool
  | .installTrans _ | .clear | .eraseHead => true
  | _ => false

def Pc.writes : Pc → Bool
  | .writeLog _ | .commitHead => true
  | x => x.committed

theorem Pc.commits_of_writes {x : Pc} (h : x.writes = true) : x.commits = true := by
  cases x <;> first | rfl | cases h

theorem Pc.writes_of_committed {x : Pc} (h : x.committed = true) : x.writes = true := by
  cases x <;> first | rfl | cases h

def Progress (L : LogArea) (base : Nat → Block) (lh : List Nat) (store : Store) : Pc → Prop
  | .writeLog tail => ∀ i b, i < tail → lh[i]? = some b →
      store.disk (L.block i) = store.view b ∧ store.view (L.block i) = store.view b
  | .commitHead => ∀ i b, lh[i]? = some b →
      store.disk (L.block i) = store.view b ∧ store.view (L.block i) = store.view b
  | .installTrans tail => readHead (store.disk L.start) = lh ∧
      (∀ i b, lh[i]? = some b → store.view (L.block i) = base b) ∧
      ∀ i b, i < tail → lh[i]? = some b → store.disk b = base b
  | .clear | .eraseHead => ∀ b, ¬L.Mem b → store.disk b = base b
  | _ => True

theorem Progress.of_not_writes (h : x.writes = false) : Progress L base lh store x := by
  cases x <;> trivial

/-- A running log, at every point of which a crash can be recovered from. -/
structure Durable (L : LogArea) (d : Nat → Block) (s : St) : Prop where
  recoverable : Recoverable L s.store.disk (s.base d)
  view : ∀ b, ¬L.Mem b → s.store.view b = replay (s.base d) s.updates b
  clean : (∀ p, (s.pc p).committed = false) →
    readHead (s.store.disk L.start) = [] ∧ s.lh ⊆ s.updates.map Update.block
  applied : ∀ p, (s.pc p).committed = true → s.updates = []
  tracked : ∀ u ∈ s.updates, u.block ∈ s.lh ∨ ∃ p, (s.pc p).pending = some u.block
  home : ∀ u ∈ s.updates, ¬L.Mem u.block ∧ u.block < 2 ^ 32
  pending : ∀ p b, (s.pc p).pending = some b → b ∈ s.updates.map Update.block
  room : (s.updates.map Update.block).toFinset.card < L.size
  fits : s.lh.length ≤ logSize ∧ s.lh.length < L.size
  homes : ∀ b ∈ s.lh, ¬L.Mem b ∧ b < 2 ^ 32
  progress : ∀ p, Progress L (s.base d) s.lh s.store (s.pc p)

theorem durable_of_quiet (hL : 0 < L.size) (hp : ∀ p, s.pc p = .idle) (hlh : s.lh = [])
    (hu : s.updates = []) (hs : readHead (s.store.disk L.start) = [])
    (hd : ∀ b, ¬L.Mem b → s.store.disk b = s.base d b ∧ s.store.view b = s.base d b) :
    Durable L d s where
  recoverable := recoverable_of_empty hL hs fun b hb => (hd b hb).1
  view := fun b hb => by rw [hu]; exact (hd b hb).2
  clean := fun _ => ⟨hs, by simp [hlh]⟩
  applied := fun _ _ => hu
  tracked := by simp [hu]
  home := by simp [hu]
  pending := fun p b h => by rw [hp p] at h; cases h
  room := by simp [hu, hL]
  fits := by simp [hlh, hL]
  homes := by simp [hlh]
  progress := fun p => by rw [hp p]; trivial

theorem Durable.frame (h : Durable L d s) (hlh : s'.lh = s.lh) (hst : s'.store = s.store)
    (hu : s'.updates = s.updates) (hg : s'.groups = s.groups)
    (hc : ∀ q, (s'.pc q).committed = (s.pc q).committed)
    (hw : ∀ q, (s'.pc q).pending = (s.pc q).pending)
    (hp : ∀ q, s'.pc q = s.pc q ∨ (s'.pc q).writes = false) : Durable L d s' := by
  have hb : s'.base d = s.base d := by rw [St.base, hg]; rfl
  obtain ⟨h₁, h₂, h₃, h₄, h₅, h₆, h₇, h₈, h₉, h₁₀, h₁₁⟩ := h
  refine ⟨?_, ?_, ?_, ?_, ?_, ?_, ?_, ?_, ?_, ?_, fun q => ?_⟩
  case refine_11 =>
    rw [hb, hlh, hst]
    rcases hp q with hq | hq
    · rw [hq]
      exact h₁₁ q
    · exact .of_not_writes hq
  all_goals
    simp only [hb, hlh, hst, hu, hc, hw]
    assumption

theorem Durable.move (h : Durable L d s) (hpc : s'.pc = update s.pc p x)
    (hp : s.pc p = y) (hlh : s'.lh = s.lh) (hst : s'.store = s.store)
    (hu : s'.updates = s.updates) (hg : s'.groups = s.groups)
    (hc : x.committed = y.committed) (hw : x.pending = y.pending) (hx : x.writes = false) :
    Durable L d s' := by
  subst hp
  refine h.frame hlh hst hu hg (fun q => ?_) (fun q => ?_) fun q => ?_
  · rw [hpc]
    exact proj_update Pc.committed s.pc hc q
  · rw [hpc]
    exact proj_update Pc.pending s.pc hw q
  · rw [hpc]
    by_cases he : q = p
    · subst he
      rw [update_self]
      exact .inr hx
    · exact .inl (update_of_ne he _ _)

theorem Durable.wakeup (h : Durable L d s) (hp : s.pc p = y) (hc : x.committed = y.committed)
    (hw : x.pending = y.pending) (hx : x.writes = false) (hy : y ≠ .asleep) :
    Durable L d { s with pc := update (roused s.pc) p x } := by
  have hr : Durable L d { s with pc := roused s.pc } := by
    refine h.frame rfl rfl rfl rfl (fun q => ?_) (fun q => ?_) fun q => ?_ <;>
      simp only [roused] <;> split
    · next he => rw [he]; rfl
    · rfl
    · next he => rw [he]; rfl
    · rfl
    · exact .inr rfl
    · exact .inl rfl
  have hy' : roused s.pc p = y := (roused_of_ne (by rw [hp]; exact hy)).trans hp
  exact hr.move (y := y) rfl hy' rfl rfl rfl rfl hc hw hx

theorem Inv.not_writes (h : Inv s) (hp : (s.pc p).commits = true) (hq : q ≠ p) :
    (s.pc q).writes = false := by
  obtain ⟨c, hc, -⟩ := h.committer
  cases hw : (s.pc q).writes with
  | false => rfl
  | true => exact absurd (hc.unique (Pc.commits_of_writes hw) hp) hq

theorem Inv.no_writes (h : Inv s) (hp : (s.pc p).counted = true) (q : Pid) :
    (s.pc q).writes = false := by
  cases hw : (s.pc q).writes with
  | false => rfl
  | true =>
    cases (h.not_committing hp).symm.trans (h.committing_of (Pc.commits_of_writes hw))

theorem Inv.no_pending (h : Inv s) (hp : (s.pc p).commits = true) (q : Pid) :
    (s.pc q).pending = none := by
  have hc := h.not_counted (h.committing_of hp) q
  cases hq : s.pc q <;> rw [hq] at hc <;> first | rfl | cases hc

theorem Inv.no_pending_update (h : Inv s) (hp : (s.pc p).commits = true)
    (hx : x.pending = none) (q : Pid) : (update s.pc p x q).pending = none :=
  (proj_update Pc.pending s.pc (hx.trans (h.no_pending hp p).symm) q).trans (h.no_pending hp q)

theorem not_forall_not_committed {pc : Pid → Pc} (hx : x.committed = true)
    (h : ∀ q, (update pc p x q).committed = false) : False := by
  have hp := h p
  rw [update_self, hx] at hp
  cases hp

theorem not_committed_of_not_writes {pc : Pid → Pc} (h : ∀ q, (pc q).writes = false)
    (q : Pid) : (pc q).committed = false := by
  cases hc : (pc q).committed with
  | false => rfl
  | true => exact (Pc.writes_of_committed hc).symm.trans (h q)

theorem Inv.progress_update (h : Inv s) (hp : (s.pc p).commits = true)
    (hx : Progress L base lh store x) (q : Pid) :
    Progress L base lh store (update s.pc p x q) := by
  by_cases he : q = p
  · subst he
    rwa [update_self]
  · rw [update_of_ne he]
    exact .of_not_writes (h.not_writes hp he)

theorem Inv.not_committed (h : Inv s) (hp : (s.pc p).commits = true)
    (hc : (s.pc p).committed = false) (q : Pid) : (s.pc q).committed = false := by
  by_cases he : q = p
  · rw [he, hc]
  · cases hq : (s.pc q).committed with
    | false => rfl
    | true => exact (Pc.writes_of_committed hq).symm.trans (h.not_writes hp he)

/-- While the header on disk is empty, all other blocks are in place. -/
theorem Durable.in_place (h : Durable L d s) (hn : ∀ p, (s.pc p).committed = false)
    (hb : ¬L.Mem b) : s.store.disk b = s.base d b :=
  h.recoverable.rest b hb (by rw [(h.clean hn).1]; exact List.not_mem_nil)

theorem Durable.size_pos (h : Durable L d s) : 0 < L.size := by
  have hf := h.fits.2
  omega

theorem Durable.mem_block (h : Durable L d s) (hi : s.lh[i]? = some b) : L.Mem (L.block i) := by
  obtain ⟨hi, -⟩ := List.getElem?_eq_some_iff.1 hi
  have hf := h.fits.2
  exact L.mem_block (by omega)

theorem Durable.home_of_mem (h : Durable L d s) {i : Nat} (hi : s.lh[i]? = some b) :
    ¬L.Mem b :=
  (h.homes b (List.mem_of_getElem? hi)).1

theorem Durable.advance (h : Durable L d s) (hi : Inv s) (hp : s.pc p = y)
    (hy : y.commits = true) (hpc : s'.pc = update s.pc p x) (hx : x.pending = none)
    (hc : x.committed = y.committed) (hlh : s'.lh = s.lh) (hu : s'.updates = s.updates)
    (hg : s'.groups = s.groups) (hr : Recoverable L s'.store.disk (s.base d))
    (hv : ∀ b, ¬L.Mem b → s'.store.view b = s.store.view b)
    (hh : readHead (s'.store.disk L.start) = readHead (s.store.disk L.start))
    (hpr : Progress L (s.base d) s.lh s'.store x) : Durable L d s' := by
  subst hp
  have hb : s'.base d = s.base d := by rw [St.base, hg]; rfl
  have hc' (q : Pid) : (s'.pc q).committed = (s.pc q).committed := by
    rw [hpc]
    exact proj_update Pc.committed s.pc hc q
  have hw' (q : Pid) : (s'.pc q).pending = (s.pc q).pending := by
    rw [hpc]
    exact proj_update Pc.pending s.pc (hx.trans (hi.no_pending hy p).symm) q
  exact {
    recoverable := by rwa [hb]
    view := fun b hm => by rw [hb, hu, hv b hm, h.view b hm]
    clean := fun hn => by
      rw [hh, hlh, hu]
      exact h.clean fun q => (hc' q).symm.trans (hn q)
    applied := fun q hq => by rw [hu, h.applied q ((hc' q).symm.trans hq)]
    tracked := by simpa only [hu, hlh, hw'] using h.tracked
    home := by simpa only [hu] using h.home
    pending := by simpa only [hu, hw'] using h.pending
    room := by simpa only [hu] using h.room
    fits := by simpa only [hlh] using h.fits
    homes := by simpa only [hlh] using h.homes
    progress := fun q => by
      rw [hb, hlh, hpc]
      exact hi.progress_update hy hpr q }

theorem Durable.writeLog (h : Durable L d s) (hi : Inv s) (hp : s.pc p = .writeLog tail)
    (hb : s.lh[tail]? = some b) :
    Durable L d ((s.copyBlock b (L.block tail)).goto p (.writeLog (tail + 1))) := by
  have hn := hi.not_committed (p := p) (by rw [hp]; rfl) (by rw [hp]; rfl)
  have hout (c : Nat) (hc : ¬L.Mem c) (f : Nat → Block) :
      update f (L.block tail) (s.store.view b) c = f c :=
    update_of_ne (by rintro rfl; exact hc (h.mem_block hb)) _ _
  have hhead : (s.store.put (L.block tail) (s.store.view b)).disk L.start =
      s.store.disk L.start := by
    rw [Store.put_disk, update_of_ne (L.block_ne_start tail).symm]
  have hpr := h.progress p
  rw [hp] at hpr
  refine h.advance hi hp rfl rfl rfl rfl rfl rfl rfl ?_ (fun c hc => hout c hc _)
    (congrArg readHead hhead) fun i c hit hc => ?_
  · refine recoverable_of_empty h.size_pos ((congrArg readHead hhead).trans (h.clean hn).1)
      fun c hc => Eq.trans ?_ (h.in_place hn hc)
    rw [St.goto, St.copyBlock, Store.put_disk, hout c hc]
  · simp only [St.goto, St.copyBlock, Store.put_disk, Store.put_view,
      hout c (h.home_of_mem hc)]
    by_cases he : i = tail
    · subst he
      rw [hb, Option.some.injEq] at hc
      subst hc
      simp only [update_self, and_self]
    · have hne : L.block i ≠ L.block tail := fun hbl => he (L.block_inj.1 hbl)
      simp only [update_of_ne hne]
      exact hpr i c (by omega) hc

theorem Durable.writeLogDone (h : Durable L d s) (hi : Inv s) (hp : s.pc p = .writeLog tail)
    (hb : s.lh[tail]? = none) : Durable L d (s.goto p .commitHead) := by
  have hpr := h.progress p
  rw [hp] at hpr
  refine h.advance hi hp rfl rfl rfl rfl rfl rfl rfl h.recoverable (fun _ _ => rfl) rfl
    fun i c hc => hpr i c ?_ hc
  obtain ⟨hlt, -⟩ := List.getElem?_eq_some_iff.1 hc
  have hle := List.getElem?_eq_none_iff.1 hb
  omega

theorem St.writeHead_of_ne (s : St) {L : LogArea} (hb : b ≠ L.start) :
    (s.writeHead L).store.disk b = s.store.disk b ∧
      (s.writeHead L).store.view b = s.store.view b := by
  simp only [St.writeHead, Store.put_disk, Store.put_view, update_of_ne hb, and_self]

theorem Durable.ne_start (h : Durable L d s) (hb : ¬L.Mem b) : b ≠ L.start := by
  rintro rfl
  exact hb (L.mem_start h.size_pos)

theorem Durable.readHead_writeHead (h : Durable L d s) :
    readHead ((s.writeHead L).store.disk L.start) = s.lh := by
  rw [St.writeHead, Store.put_disk, update_self,
    Xv6.readHead_writeHead _ h.fits.1 fun b hb => (h.homes b hb).2]

theorem Durable.mem_lh (h : Durable L d s) (hi : Inv s) (hp : (s.pc p).commits = true)
    (hb : b ∈ s.updates.map Update.block) : b ∈ s.lh := by
  obtain ⟨u, hu, rfl⟩ := List.mem_map.1 hb
  rcases h.tracked u hu with hl | ⟨q, hq⟩
  · exact hl
  · rw [hi.no_pending hp q] at hq
    cases hq

/-- The first `write_head` makes the whole group durable. -/
theorem Durable.commitHead (h : Durable L d s) (hi : Inv s) (hp : s.pc p = .commitHead) :
    Durable L d { (s.writeHead L).goto p (.installTrans 0) with
      updates := [], groups := s.groups ++ [s.updates] } := by
  have hcom : (s.pc p).commits = true := by rw [hp]; rfl
  have hn := hi.not_committed hcom (by rw [hp]; rfl)
  have hpr := h.progress p
  rw [hp] at hpr
  have hbase : replay d (s.groups ++ [s.updates]).flatten = replay (s.base d) s.updates := by
    rw [List.flatten_concat, replay_append]
    rfl
  have hcopy (i b : Nat) (hb : s.lh[i]? = some b) :
      (s.writeHead L).store.disk (L.block i) = replay (s.base d) s.updates b ∧
        (s.writeHead L).store.view (L.block i) = replay (s.base d) s.updates b := by
    rw [← h.view b (h.home_of_mem hb)]
    have hw := s.writeHead_of_ne (L.block_ne_start i)
    exact ⟨hw.1.trans (hpr i b hb).1, hw.2.trans (hpr i b hb).2⟩
  have hrec : Recoverable L (s.writeHead L).store.disk (replay (s.base d) s.updates) := by
    refine ⟨?_, ?_, ?_, fun b hb => ?_⟩ <;> rw [h.readHead_writeHead]
    · exact h.fits
    · exact fun b hb => (h.homes b hb).1
    · exact fun i b hb => (hcopy i b hb).1
    · intro hlh
      rw [(s.writeHead_of_ne (h.ne_start hb)).1, h.in_place hn hb,
        replay_of_notMem _ fun hm => hlh (h.mem_lh hi hcom hm)]
  rw [← hbase] at hrec hcopy
  exact {
    recoverable := hrec
    view := fun b hb => by
      refine (s.writeHead_of_ne (h.ne_start hb)).2.trans ((h.view b hb).trans ?_)
      rw [← hbase]
      rfl
    clean := fun hc => (not_forall_not_committed rfl hc).elim
    applied := fun _ _ => rfl
    tracked := nofun
    home := nofun
    pending := fun q b hq => by cases (hi.no_pending_update hcom rfl q).symm.trans hq
    room := h.size_pos
    fits := h.fits
    homes := h.homes
    progress := hi.progress_update hcom
      ⟨h.readHead_writeHead, fun i b hb => (hcopy i b hb).2, nofun⟩ }

theorem Durable.installTrans (h : Durable L d s) (hi : Inv s)
    (hp : s.pc p = .installTrans tail) (hb : s.lh[tail]? = some b) :
    Durable L d ((s.copyBlock (L.block tail) b).goto p (.installTrans (tail + 1))) := by
  have hpr := h.progress p
  rw [hp] at hpr
  obtain ⟨hhead, hview, hdone⟩ := hpr
  have hm := h.home_of_mem hb
  have hbase (c : Nat) (hc : ¬L.Mem c) : s.store.view c = s.base d c := by
    rw [h.view c hc, h.applied p (by rw [hp]; rfl)]
    rfl
  have hstart : update s.store.disk b (s.base d b) L.start = s.store.disk L.start :=
    update_of_ne (h.ne_start hm).symm _ _
  have hput : s.store.put b (s.store.view (L.block tail)) = s.store.put b (s.base d b) := by
    rw [hview tail b hb]
  refine h.advance hi hp rfl rfl rfl rfl rfl rfl rfl ?_ (fun c hc => ?_) ?_ ?_ <;>
    simp only [St.goto, St.copyBlock, hput, Store.put_disk, Store.put_view]
  · exact h.recoverable.install hm
  · by_cases he : c = b
    · rw [he, update_self, hbase b hm]
    · rw [update_of_ne he]
  · rw [hstart]
  · refine ⟨by rw [Store.put_disk, hstart, hhead], fun i c hc => ?_, fun i c hit hc => ?_⟩
    · rw [Store.put_view, update_of_ne, hview i c hc]
      rintro rfl
      exact hm (h.mem_block hc)
    · rw [Store.put_disk]
      by_cases he : c = b
      · rw [he, update_self]
      · rw [update_of_ne he]
        refine hdone i c (Nat.lt_of_le_of_ne (Nat.le_of_lt_succ hit) ?_) hc
        rintro rfl
        exact he (Option.some.inj (hc.symm.trans hb))

theorem Durable.installTransDone (h : Durable L d s) (hi : Inv s)
    (hp : s.pc p = .installTrans tail) (hb : s.lh[tail]? = none) :
    Durable L d (s.goto p .clear) := by
  have hpr := h.progress p
  rw [hp] at hpr
  obtain ⟨hhead, hview, hdone⟩ := hpr
  refine h.advance hi hp rfl rfl rfl rfl rfl rfl rfl h.recoverable (fun _ _ => rfl) rfl
    fun c hc => ?_
  by_cases hm : c ∈ s.lh
  · obtain ⟨i, hi'⟩ := List.mem_iff_getElem?.1 hm
    obtain ⟨hlt, -⟩ := List.getElem?_eq_some_iff.1 hi'
    have hle := List.getElem?_eq_none_iff.1 hb
    exact hdone i c (by omega) hi'
  · exact h.recoverable.rest c hc (by rwa [hhead])

theorem Durable.clear (h : Durable L d s) (hi : Inv s) (hp : s.pc p = .clear) :
    Durable L d { s.goto p .eraseHead with lh := [], logged := ∅ } := by
  have hcom : (s.pc p).commits = true := by rw [hp]; rfl
  have hu := h.applied p (by rw [hp]; rfl)
  have hpr := h.progress p
  rw [hp] at hpr
  exact {
    recoverable := h.recoverable
    view := h.view
    clean := fun hc => (not_forall_not_committed rfl hc).elim
    applied := fun _ _ => hu
    tracked := by simp [St.goto, hu]
    home := h.home
    pending := fun q b hq => by cases (hi.no_pending_update hcom rfl q).symm.trans hq
    room := h.room
    fits := ⟨Nat.zero_le _, h.size_pos⟩
    homes := nofun
    progress := hi.progress_update hcom hpr }

/-- The second `write_head` empties the header on the disk. -/
theorem Durable.eraseHead (h : Durable L d s) (hi : Inv s) (hp : s.pc p = .eraseHead) :
    Durable L d ((s.writeHead L).goto p .doneAcquire) := by
  have hcom : (s.pc p).commits = true := by rw [hp]; rfl
  have hlh := hi.cleared p (by rw [hp]; rfl)
  have hu := h.applied p (by rw [hp]; rfl)
  have hpr := h.progress p
  rw [hp] at hpr
  have hhead := h.readHead_writeHead
  rw [hlh] at hhead
  exact {
    recoverable := recoverable_of_empty h.size_pos hhead fun b hb =>
      (s.writeHead_of_ne (h.ne_start hb)).1.trans (hpr b hb)
    view := fun b hb => (s.writeHead_of_ne (h.ne_start hb)).2.trans (h.view b hb)
    clean := fun _ => ⟨hhead, by
      rw [show ((s.writeHead L).goto p .doneAcquire).lh = [] from hlh]
      exact List.nil_subset _⟩
    applied := fun _ _ => hu
    tracked := by simp [St.goto, St.writeHead, hu]
    home := h.home
    pending := fun q b hq => by cases (hi.no_pending_update hcom rfl q).symm.trans hq
    room := h.room
    fits := h.fits
    homes := h.homes
    progress := hi.progress_update hcom trivial }

theorem Durable.logWrite (h : Durable L d s) (hi : Inv s) (hp : s.pc p = .writeBody b)
    (hb : s.lh.idxOf b < logSize) :
    Durable L d { s.goto p .writeRelease with
      lh := if b ∈ s.lh then s.lh else s.lh ++ [b]
      opBlocks := update s.opBlocks p (insert b (s.opBlocks p))
      logged := insert b s.logged } := by
  have hw := hi.no_writes (p := p) (by rw [hp]; rfl)
  have hn := not_committed_of_not_writes hw
  have hmem : b ∈ s.updates.map Update.block := h.pending p b (by rw [hp]; rfl)
  obtain ⟨u, hu, rfl⟩ := List.mem_map.1 hmem
  have hi' := hi.logWrite hp
  have hsub : (if u.block ∈ s.lh then s.lh else s.lh ++ [u.block]) ⊆
      s.updates.map Update.block := by
    split
    · exact (h.clean hn).2
    · exact List.append_subset.2 ⟨(h.clean hn).2, List.cons_subset.2 ⟨hmem, List.nil_subset _⟩⟩
  have hin (c : Nat) (hc : c ∈ s.lh) :
      c ∈ if u.block ∈ s.lh then s.lh else s.lh ++ [u.block] := by
    split
    · exact hc
    · exact List.mem_append_left _ hc
  have hself : u.block ∈ if u.block ∈ s.lh then s.lh else s.lh ++ [u.block] := by
    split
    · assumption
    · exact List.mem_append_right _ (List.mem_singleton_self _)
  exact {
    recoverable := h.recoverable
    view := h.view
    clean := fun _ => ⟨(h.clean hn).1, hsub⟩
    applied := fun q hq => h.applied q
      (imp_update (P := fun x : Pc => x.committed = true) (x := .writeRelease) nofun hq)
    tracked := fun v hv => by
      rcases h.tracked v hv with hl | ⟨q, hq⟩
      · exact .inl (hin _ hl)
      · by_cases he : q = p
        · subst he
          rw [hp] at hq
          exact .inl (Option.some.inj hq ▸ hself)
        · exact .inr ⟨q, by simpa only [St.goto, update_of_ne he] using hq⟩
    home := h.home
    pending := fun q c hq => h.pending q c
      (imp_update (P := fun x : Pc => x.pending = some c) (x := .writeRelease) nofun hq)
    room := h.room
    fits := by
      refine ⟨?_, ?_⟩
      · change (if u.block ∈ s.lh then s.lh else s.lh ++ [u.block]).length ≤ logSize
        split
        · exact h.fits.1
        · next hnew =>
          rw [List.idxOf_eq_length hnew] at hb
          rw [List.length_append, List.length_singleton]
          exact hb
      · have hcard := List.toFinset_card_of_nodup hi'.nodup
        have hle : (if u.block ∈ s.lh then s.lh else s.lh ++ [u.block]).toFinset.card ≤
            (s.updates.map Update.block).toFinset.card :=
          Finset.card_le_card fun c hc => List.mem_toFinset.2 (hsub (List.mem_toFinset.1 hc))
        exact Nat.lt_of_le_of_lt (hcard.symm.trans_le hle) h.room
    homes := fun c hc => by
      obtain ⟨v, hv, rfl⟩ := List.mem_map.1 (hsub hc)
      exact h.home v hv
    progress := fun q => by
      refine .of_not_writes ?_
      exact (proj_update Pc.writes s.pc (by rw [hp]; rfl) q).trans (hw q) }

theorem Durable.moves (h : Durable L d s) (hi : Inv s) (hs : Moves L s p s') :
    Durable L d s' := by
  cases hs with
  | beginAcquire hp | enter hp | refuse hp | sleepAcquire hp | sleepRelease hp | sleepSched hp
  | beginRelease hp | writeCheck hp | writeAcquire hp | writeRelease hp | endAcquire hp
  | endLast hp | endOther hp | commitNothing hp | doneAcquire hp | doneBody hp
  | doneRelease hp => exact h.move rfl hp rfl rfl rfl rfl rfl rfl rfl
  | writeBody hp hb => exact h.logWrite hi hp hb
  | endWakeup hp => exact h.wakeup hp rfl rfl rfl nofun
  | @endRelease c hp =>
    cases c with
    | false => exact h.move rfl hp rfl rfl rfl rfl rfl rfl rfl
    | true => exact h.move rfl hp rfl rfl rfl rfl rfl rfl rfl
  | commit hp =>
    exact h.advance hi hp rfl rfl rfl rfl rfl rfl rfl h.recoverable (fun _ _ => rfl) rfl nofun
  | writeLog hp hb => exact h.writeLog hi hp hb
  | writeLogDone hp hb => exact h.writeLogDone hi hp hb
  | commitHead hp => exact h.commitHead hi hp
  | installTrans hp hb => exact h.installTrans hi hp hb
  | installTransDone hp hb => exact h.installTransDone hi hp hb
  | clear hp => exact h.clear hi hp
  | eraseHead hp => exact h.eraseHead hi hp
  | doneWakeup hp => exact h.wakeup hp rfl rfl rfl nofun

/-- Blocks logged lie outside the log, at most `log.size - 1` in a group. -/
def withinLog (L : LogArea) (s : St) : Event → Bool
  | .call _ (.logWrite b _) => decide (¬L.Mem b.toNat) &&
      decide ((insert b.toNat (s.updates.map Update.block).toFinset).card < L.size)
  | _ => true

theorem Durable.callLogWrite (h : Durable L d s) (hi : Inv s) (hp : s.pc p = .inOp)
    (hl : withinLog L s (.call p (.logWrite b dat)) = true) :
    Durable L d { s.goto p (.writeCheck b.toNat) with
      store := s.store.modify b.toNat dat
      issued := s.issued ++ [⟨p, s.opCount p, b.toNat, dat⟩]
      updates := s.updates ++ [⟨p, s.opCount p, b.toNat, dat⟩] } := by
  have hw := hi.no_writes (p := p) (by rw [hp]; rfl)
  have hn := not_committed_of_not_writes hw
  have hw' (q : Pid) : (update s.pc p (.writeCheck b.toNat) q).writes = false :=
    (proj_update Pc.writes s.pc (by rw [hp]; rfl) q).trans (hw q)
  simp only [withinLog, Bool.and_eq_true, decide_eq_true_eq] at hl
  exact {
    recoverable := h.recoverable
    view := fun c hc => by
      rw [replay_append]
      change update s.store.view b.toNat dat c =
        update (replay (s.base d) s.updates) b.toNat dat c
      by_cases he : c = b.toNat
      · rw [he, update_self, update_self]
      · rw [update_of_ne he, update_of_ne he, h.view c hc]
    clean := fun _ => ⟨(h.clean hn).1, fun c hc => by
      rw [List.map_append]
      exact List.mem_append_left _ ((h.clean hn).2 hc)⟩
    applied := fun q hq => by
      cases (not_committed_of_not_writes hw' q).symm.trans hq
    tracked := fun u hu => by
      rcases List.mem_append.1 hu with hu | hu
      · rcases h.tracked u hu with hl | ⟨q, hq⟩
        · exact .inl hl
        · refine .inr ⟨q, ?_⟩
          have he : q ≠ p := by
            rintro rfl
            rw [hp] at hq
            cases hq
          simpa only [St.goto, update_of_ne he] using hq
      · rw [List.mem_singleton.1 hu]
        exact .inr ⟨p, by simp only [St.goto, update_self, Pc.pending]⟩
    home := fun u hu => by
      rcases List.mem_append.1 hu with hu | hu
      · exact h.home u hu
      · rw [List.mem_singleton.1 hu]
        exact ⟨hl.1, b.toNat_lt⟩
    pending := fun q c hq => by
      rw [List.map_append]
      by_cases he : q = p
      · subst he
        simp only [St.goto, update_self, Pc.pending, Option.some.injEq] at hq
        subst hq
        exact List.mem_append_right _ (List.mem_singleton_self _)
      · refine List.mem_append_left _ (h.pending q c ?_)
        simpa only [St.goto, update_of_ne he] using hq
    room := by
      rw [List.map_append, List.toFinset_append, Finset.union_comm]
      exact hl.2
    fits := h.fits
    homes := h.homes
    progress := fun q => .of_not_writes (hw' q) }

theorem Durable.calls (h : Durable L d s) (hi : Inv s) (hs : Calls s p c s')
    (hl : withinLog L s (.call p c) = true) : Durable L d s' := by
  cases hs with
  | beginOp hp => exact h.move rfl hp rfl rfl rfl rfl rfl rfl rfl
  | logWrite hp => exact h.callLogWrite hi hp hl
  | endOp hp => exact h.move rfl hp rfl rfl rfl rfl rfl rfl rfl

end Xv6.Log
