import Xv6.Pipes.Fifo

namespace Xv6.Pipes
open Lib Proc Sched Function
set_option autoImplicit true

def Phase.inWrite : Phase → Bool
  | .writeDone _ => true
  | x => x.writing.isSome

def Phase.inRead (x : Phase) : Bool :=
  x.reading.isSome

def nobody (f : Phase → Bool) (phase : Slot → Option Phase) : Bool :=
  decide (∀ p, ((phase p).any f) = false)

/-- An end is used while open, and closed once, when nobody uses it. -/
def endOpen (s : Mst St Phase) : Cpu × Event Input → Bool
  | (_, .code (.write _)) => s.data.pipe.writeopen
  | (_, .code (.read _)) => s.data.pipe.readopen
  | (_, .code (.close true)) => s.data.pipe.writeopen && nobody Phase.inWrite s.phase
  | (_, .code (.close false)) => s.data.pipe.readopen && nobody Phase.inRead s.phase
  | _ => true

def Phase.large : Phase → Bool
  | .write _ addr _ => pipeSize < addr.length
  | _ => false

/-- A process in a `pipewrite` of over PIPESIZE bytes is not killed. -/
def spared (s : Mst St Phase) : Cpu × Event Input → Bool
  | (c, .code _) =>
    match s.k.spc c with
    | .away p => !((s.phase p).any Phase.large && s.k.t.killed p)
    | _ => true
  | _ => true

/-- The process will call `wakeup(&p->nread)` under the lock. -/
def Phase.owesRead : Phase → Bool
  | .write _ _ _ => true
  | .writeFull _ _ _ => true
  | .writeDone _ => true
  | .closeDone writable => writable
  | _ => false

def Phase.owesWrite : Phase → Bool
  | .readCopy _ _ => true
  | .readDone _ _ => true
  | .closeDone writable => !writable
  | _ => false

/-- While a process has the lock: `r` and `w` say that nobody sleeps on `p->nread` and
`p->nwrite`. -/
structure Heard (r w : Prop) (pipe : Pipe) (o : Option Phase) : Prop where
  readers : r ∨ pipe.empty = true ∧ pipe.writeopen = true ∨ o.any Phase.owesRead = true
  writers : w ∨ pipe.full = true ∧ pipe.readopen = true ∨ o.any Phase.owesWrite = true
  writing : ∀ call addr i, o = some (.write call addr i) →
    r ∨ ahead pipe.nread pipe.nwrite ≤ i
  filled : ∀ call addr i, o = some (.writeFull call addr i) →
    pipe.full = true ∧ pipe.readopen = true

theorem pipewrite_ne_sleep (he : pipewrite a s killed call addr i = (d, o)) : o ≠ .sleep n x := by
  unfold pipewrite at he
  split at he
  · split at he
    · split at he <;> cases he <;> nofun
    · cases he
      nofun
  · cases he
    nofun

theorem Heard.write (h : Heard r w s.pipe (some (.write call addr i)))
    (hb : ahead s.pipe.nread s.pipe.nwrite ≤ pipeSize)
    (he : pipewrite a s killed call addr i = (d, o)) (hr : r → r') (hw : w → w')
    (hclosed : s.pipe.readopen = false → r)
    (hspared : pipeSize < addr.length → killed = false) : Heard r' w' d.pipe o.next := by
  have hwriters : w' ∨ s.pipe.full = true ∧ s.pipe.readopen = true := by
    rcases h.writers with hw' | hp | ho
    · exact .inl (hw hw')
    · exact .inr hp
    · cases ho
  have hwriting := h.writing call addr i rfl
  unfold pipewrite at he
  split at he
  · next b hb' =>
    split at he
    · next hfull =>
      split at he
      · next hleave =>
        cases he
        refine ⟨.inl (hr ?_), hwriters.imp_right .inl, nofun, nofun⟩
        rw [Bool.or_eq_true, Bool.not_eq_true'] at hleave
        rcases hleave with hro | hk
        · exact hclosed hro
        · refine hwriting.resolve_right fun hle => ?_
          rw [Pipe.full_iff.1 hfull] at hle
          have hlt : i < addr.length := (List.getElem?_eq_some_iff.1 hb').1
          cases (hspared (Nat.lt_of_le_of_lt hle hlt)).symm.trans hk
      · next hgo =>
        cases he
        rw [Bool.or_eq_true, Bool.not_eq_true', not_or, Bool.not_eq_false] at hgo
        exact ⟨.inr (.inr rfl), hwriters.imp_right .inl, nofun, fun _ _ _ _ => ⟨hfull, hgo.1⟩⟩
    · next hfull =>
      cases he
      refine ⟨.inr (.inr rfl), .inl (hwriters.resolve_right fun hp => hfull hp.1), ?_, nofun⟩
      intro call' addr' i' hx
      cases hx
      rw [Pipe.ahead_put hb]
      exact hwriting.imp hr Nat.succ_le_succ
  · cases he
    exact ⟨.inr (.inr rfl), hwriters.imp_right .inl, nofun, nofun⟩

theorem Heard.exec (h : Heard r w s.pipe (some x))
    (hb : ahead s.pipe.nread s.pipe.nwrite ≤ pipeSize) (he : exec a s killed x = (d, o))
    (hr : (∀ x', o ≠ .sleep (nreadAddr a) x') → r → r')
    (hw : (∀ x', o ≠ .sleep (nwriteAddr a) x') → w → w')
    (hrwoke : x.woke a = some (nreadAddr a) → r) (hwwoke : x.woke a = some (nwriteAddr a) → w)
    (hclosed : s.pipe.readopen = false → r)
    (hspared : x.large = true → killed = false) : Heard r' w' d.pipe o.next := by
  have hreaders (hx : x.owesRead = false) (hx' : ∀ x', o ≠ .sleep (nreadAddr a) x') :
      r' ∨ s.pipe.empty = true ∧ s.pipe.writeopen = true := by
    rcases h.readers with hr' | hp | ho
    · exact .inl (hr hx' hr')
    · exact .inr hp
    · cases hx.symm.trans ho
  have hwriters (hx : x.owesWrite = false) (hx' : ∀ x', o ≠ .sleep (nwriteAddr a) x') :
      w' ∨ s.pipe.full = true ∧ s.pipe.readopen = true := by
    rcases h.writers with hw' | hp | ho
    · exact .inl (hw hx' hw')
    · exact .inr hp
    · cases hx.symm.trans ho
  cases x with
  | write call addr i =>
    have hsleep (n : Nat) (x' : Phase) : o ≠ .sleep n x' := pipewrite_ne_sleep he
    exact h.write hb he (hr (hsleep _)) (hw (hsleep _)) hclosed fun hl => hspared (decide_eq_true hl)
  | writeFull call addr i =>
    cases he
    obtain ⟨hfull, hopen⟩ := h.filled call addr i rfl
    refine ⟨.inl (hr (fun x' hx' => ?_) (hrwoke rfl)), .inr (.inl ⟨hfull, hopen⟩), nofun, nofun⟩
    cases hx'
  | writeSleep call addr i =>
    cases he
    refine ⟨.inr (.inr rfl), (hwriters rfl nofun).imp_right .inl, ?_, nofun⟩
    intro call' addr' i' hx
    cases hx
    refine (hreaders rfl nofun).imp_right fun hp => ?_
    rw [Pipe.empty_iff.1 hp.1]
    exact Nat.zero_le _
  | writeDone addr =>
    cases he
    exact ⟨.inl (hr nofun (hrwoke rfl)), (hwriters rfl nofun).imp_right .inl, nofun, nofun⟩
  | read n =>
    unfold Pipes.exec piperead at he
    dsimp only at he
    split at he
    · next hc =>
      rw [Bool.and_eq_true] at hc
      split at he
      · cases he
        exact ⟨.inr (.inl hc), (hwriters rfl nofun).imp_right .inl, nofun, nofun⟩
      · cases he
        refine ⟨.inr (.inl hc), (hwriters rfl fun x' hx' => ?_).imp_right .inl, nofun, nofun⟩
        cases hx'
    · cases he
      exact ⟨(hreaders rfl nofun).imp_right .inl, .inr (.inr rfl), nofun, nofun⟩
  | readSleep n =>
    cases he
    exact ⟨(hreaders rfl nofun).imp_right .inl, (hwriters rfl nofun).imp_right .inl, nofun, nofun⟩
  | readCopy n got =>
    unfold Pipes.exec copy at he
    dsimp only at he
    split at he
    · next hc =>
      cases he
      refine ⟨.inl ((hreaders rfl nofun).resolve_right fun hp => ?_), .inr (.inr rfl), nofun, nofun⟩
      cases hc.2.symm.trans hp.1
    · cases he
      exact ⟨(hreaders rfl nofun).imp_right .inl, .inr (.inr rfl), nofun, nofun⟩
  | readDone n got =>
    cases he
    exact ⟨(hreaders rfl nofun).imp_right .inl, .inl (hw nofun (hwwoke rfl)), nofun, nofun⟩
  | close writable =>
    unfold Pipes.exec pipeclose at he
    dsimp only at he
    split at he
    · next hwr =>
      cases he
      exact ⟨.inr (.inr hwr), (hwriters rfl nofun).imp_right .inl, nofun, nofun⟩
    · next hwr =>
      cases he
      refine ⟨(hreaders rfl nofun).imp_right .inl, .inr (.inr ?_), nofun, nofun⟩
      rw [Bool.eq_false_iff.2 hwr]
      rfl
  | closeDone writable =>
    cases he
    cases writable with
    | true => exact ⟨.inl (hr nofun (hrwoke rfl)), (hwriters rfl nofun).imp_right .inl, nofun, nofun⟩
    | false => exact ⟨(hreaders rfl nofun).imp_right .inl, .inl (hw nofun (hwwoke rfl)), nofun, nofun⟩

theorem Heard.mono (h : Heard r w pipe o) (hr : r → r') (hw : w → w') : Heard r' w' pipe o where
  readers := h.readers.imp_left hr
  writers := h.writers.imp_left hw
  writing call addr i hx := (h.writing call addr i hx).imp_left hr
  filled := h.filled

theorem heard_rests (hx : x.rests = true) : Heard r w pipe (some x) ↔ Heard r w pipe none := by
  have hread : x.owesRead = false := by
    cases x <;> first | rfl | cases hx
  have hwrite : x.owesWrite = false := by
    cases x <;> first | rfl | cases hx
  constructor
  · intro h
    refine ⟨?_, ?_, nofun, nofun⟩
    · simpa [hread] using h.readers
    · simpa [hwrite] using h.writers
  · intro h
    refine ⟨?_, ?_, ?_, ?_⟩
    · simpa [hread] using h.readers
    · simpa [hwrite] using h.writers
    · intro call addr i he
      cases he
      cases hx
    · intro call addr i he
      cases he
      cases hx

theorem Heard.enter (h : Heard r w s.pipe none) (he : enter s i = some (d, x)) :
    Heard r w d.pipe (some x) := by
  have hreaders : r ∨ s.pipe.empty = true ∧ s.pipe.writeopen = true := by
    simpa using h.readers
  have hwriters : w ∨ s.pipe.full = true ∧ s.pipe.readopen = true := by
    simpa using h.writers
  cases i with
  | write addr =>
    cases he
    refine ⟨.inr (.inr rfl), hwriters.imp_right .inl, ?_, nofun⟩
    intro call' addr' i' hx
    cases hx
    exact hreaders.imp_right fun hp => (Pipe.empty_iff.1 hp.1).le
  | read n =>
    cases he
    exact ⟨hreaders.imp_right .inl, hwriters.imp_right .inl, nofun, nofun⟩
  | close writable =>
    cases he
    exact ⟨hreaders.imp_right .inl, hwriters.imp_right .inl, nofun, nofun⟩
  | go => cases he

def NoReader (phase : Slot → Option Phase) : Prop :=
  ∀ p x, phase p = some x → x.reading = none

/-- Readers and writers sleep for a reason, or will be woken under the lock. -/
structure Stirred (a : Nat) (s : Mst St Phase) : Prop where
  inv : Inv a s
  active : ∀ p x, s.phase p = some x → x.rests = false →
    Heard (Silent s (nreadAddr a)) (Silent s (nwriteAddr a)) s.data.pipe (some x)
  quiet : (∀ p x, s.phase p = some x → x.rests = true) →
    Heard (Silent s (nreadAddr a)) (Silent s (nwriteAddr a)) s.data.pipe none
  closing : ∀ p, s.phase p = some (.close false) → NoReader s.phase
  closed : s.data.pipe.readopen = false → NoReader s.phase
  sleepers : ∀ p, pending s.k (.addr (nreadAddr a)) p → ∃ n, s.phase p = some (.readSleep n)

theorem stirred_boot (a : Nat) (ticks : UInt32) : Stirred a (boot ticks) := by
  have hsilent (n : Nat) : Silent (boot ticks) n := by
    rintro p (⟨-, hc⟩ | hs)
    · cases hc
    · cases hs
  exact ⟨inv_boot a ticks, nofun, fun _ => ⟨.inl (hsilent _), .inl (hsilent _), nofun, nofun⟩, nofun,
    nofun, fun p hp => absurd hp (hsilent _ p)⟩

theorem nread_mem (a : Nat) : nreadAddr a ∈ (code a).chans := by
  simp [code]

theorem nwrite_mem (a : Nat) : nwriteAddr a ∈ (code a).chans := by
  simp [code]

theorem exec_reading (h : (exec a s killed x).2.next = some y) (hy : y.reading ≠ none) :
    x.reading ≠ none := by
  cases x <;> simp only [exec] at h <;>
    grind [pipewrite, piperead, copy, pipeclose, Phase.reading, Out.next]

theorem exec_close (h : (exec a s killed x).2.next = some y) : y ≠ .close writable := by
  cases x <;> simp only [exec] at h <;>
    grind [pipewrite, piperead, copy, pipeclose, Out.next]

theorem exec_readopen (h : (exec a s killed x).1.pipe.readopen = false) :
    s.pipe.readopen = false ∨ x = .close false := by
  cases x <;> simp only [exec] at h <;>
    grind [pipewrite, piperead, copy, pipeclose, Pipe.put, Pipe.get]

theorem exec_sleep (h : (exec a s killed x).2 = .sleep (nreadAddr a) y) :
    ∃ n, y = .readSleep n := by
  cases x <;> simp only [exec] at h <;>
    grind [pipewrite, piperead, copy, pipeclose, nreadAddr, nwriteAddr]

theorem enter_cases (he : enter s i = some (d, x)) : d.pipe = s.pipe ∧
    ((∃ addr, i = .write addr ∧ x = .write s.writes.length addr 0) ∨
      (∃ n, i = .read n ∧ x = .read n) ∨ ∃ writable, i = .close writable ∧ x = .close writable) := by
  cases i with
  | write addr =>
    cases he
    exact ⟨rfl, .inl ⟨addr, rfl, rfl⟩⟩
  | read n =>
    cases he
    exact ⟨rfl, .inr (.inl ⟨n, rfl, rfl⟩)⟩
  | close writable =>
    cases he
    exact ⟨rfl, .inr (.inr ⟨writable, rfl, rfl⟩)⟩
  | go => cases he

theorem noReader_of_nobody (h : nobody Phase.inRead phase = true) : NoReader phase := by
  intro p x hx
  have hp := of_decide_eq_true h p
  rw [hx] at hp
  simpa [Phase.inRead] using hp

section Step
variable {s s' : Mst St Phase}

theorem Stirred.heard (h : Stirred a s) (hrest : OthersRest s.phase p) :
    Heard (Silent s (nreadAddr a)) (Silent s (nwriteAddr a)) s.data.pipe (s.phase p) := by
  cases hx : s.phase p with
  | none =>
    refine h.quiet fun q y hy => hrest q ?_ y hy
    rintro rfl
    cases hx.symm.trans hy
  | some x =>
    cases hr : x.rests with
    | false => exact h.active p x hx hr
    | true =>
      rw [heard_rests hr]
      refine h.quiet fun q y hy => ?_
      by_cases hq : q = p
      · subst hq
        cases hx.symm.trans hy
        exact hr
      · exact hrest q hq y hy

theorem stirred_of_heard (hi : Inv a s) (hrest : OthersRest s.phase p)
    (hh : Heard (Silent s (nreadAddr a)) (Silent s (nwriteAddr a)) s.data.pipe (s.phase p))
    (hclosing : s.phase p = some (.close false) → NoReader s.phase)
    (hclosed : s.data.pipe.readopen = false → NoReader s.phase)
    (hsleepers : ∀ q, pending s.k (.addr (nreadAddr a)) q → ∃ n, s.phase q = some (.readSleep n)) :
    Stirred a s := by
  refine ⟨hi, ?_, ?_, ?_, hclosed, hsleepers⟩
  · intro q x hx hr
    by_cases hq : q = p
    · rwa [← hq, hx] at hh
    · cases hr.symm.trans (hrest q hq x hx)
  · intro hall
    cases hx : s.phase p with
    | none => rwa [hx] at hh
    | some x =>
      rw [hx] at hh
      exact (heard_rests (hall p x hx)).1 hh
  · intro q hq
    by_cases hqp : q = p
    · exact hclosing (hqp ▸ hq)
    · cases hrest q hqp _ hq

/-- With the read end closed nobody sleeps on `p->nread`. -/
theorem Stirred.silent_closed (h : Stirred a s) (hc : s.data.pipe.readopen = false) :
    Silent s (nreadAddr a) := by
  intro p hp
  obtain ⟨n, hn⟩ := h.sleepers p hp
  cases h.closed hc p _ hn

theorem Stirred.sys (h : Stirred a s) (ho : (code a).step s (c, .sys b) = .ok s') :
    Stirred a s' := by
  have hsilent (n : Nat) (hn : n ∈ (code a).chans) (hs : Silent s n) : Silent s' n :=
    h.inv.mon.silent_step hn hs ho fun _ _ _ _ _ he => by cases he
  have hr := hsilent _ (nread_mem a)
  have hw := hsilent _ (nwrite_mem a)
  have hi := h.inv.step ho
  obtain ⟨b', k', he, ha, hk, rfl⟩ | ⟨i, p, x, d, k', he, -⟩ | ⟨i, p, x, d, o, k', he, -⟩ :=
    Code.step_cases ho
  · refine ⟨hi, fun p x hx hrest => (h.active p x hx hrest).mono hr hw,
      fun hall => (h.quiet hall).mono hr hw, h.closing, h.closed, fun p hp => ?_⟩
    exact h.sleepers p (h.inv.mon.pending_sys ha (tick_step h.inv.mon.inv hk) (nread_mem a) hp)
  · cases he
  · cases he

theorem Stirred.enter (h : Stirred a s) (hl : endOpen s (c, .code i) = true)
    (hc : s.k.spc c = .away p) (hp : s.k.pc p = .point .run) (hx : s.phase p = none)
    (he : enter s.data i = some (s'.data, x))
    (hk : Sched.step s.k (c, .call (.acquire a)) = .ok s'.k)
    (hph : s'.phase = update s.phase p (some x)) (hi : Inv a s')
    (hr : Silent s (nreadAddr a) → Silent s' (nreadAddr a))
    (hw : Silent s (nwriteAddr a) → Silent s' (nwriteAddr a)) : Stirred a s' := by
  have hall (q : Slot) (y : Phase) (hy : s.phase q = some y) : y.rests = true :=
    h.inv.mon.all_rest (h.inv.mon.enter_free hc hp hk) hy
  have hrest : OthersRest s'.phase p := by
    rw [hph]
    exact OthersRest.update (fun q _ => hall q) _
  have hself : s'.phase p = some x := by
    rw [hph, update_self]
  have hnone (hn : NoReader s.phase) (hx : x.reading = none) : NoReader s'.phase := by
    intro q y hy
    rw [hph] at hy
    by_cases hq : q = p
    · rw [hq, update_self] at hy
      cases hy
      exact hx
    · rw [update_of_ne hq] at hy
      exact hn q y hy
  refine stirred_of_heard hi hrest ?_ ?_ ?_ ?_
  · rw [hself]
    exact ((h.quiet hall).enter he).mono hr hw
  · intro hcl
    cases hself.symm.trans hcl
    obtain ⟨-, ⟨addr, -, hx⟩ | ⟨n, -, hx⟩ | ⟨writable, rfl, hx⟩⟩ := enter_cases he
    · cases hx
    · cases hx
    · cases hx
      exact hnone (noReader_of_nobody (Bool.and_eq_true_iff.1 hl).2) rfl
  · intro hcl
    obtain ⟨hpipe, ⟨addr, -, rfl⟩ | ⟨n, rfl, rfl⟩ | ⟨writable, -, rfl⟩⟩ := enter_cases he
    · exact hnone (h.closed (hpipe ▸ hcl)) rfl
    · cases (show s.data.pipe.readopen = true from hl).symm.trans (hpipe ▸ hcl)
    · exact hnone (h.closed (hpipe ▸ hcl)) rfl
  · intro q hq
    rcases h.inv.mon.sleeps.pending_step (tick_step h.inv.mon.inv hk) hq with hq' | ⟨-, -, b, hb⟩
    · obtain ⟨n, hn⟩ := h.sleepers q hq'
      refine ⟨n, ?_⟩
      rw [hph, update_of_ne, hn]
      rintro rfl
      cases hx.symm.trans hn
    · cases hb

theorem Stirred.run (h : Stirred a s) (hs : spared s (c, .code i) = true)
    (hc : s.k.spc c = .away p) (hp : s.k.pc p = .point .run) (hx : s.phase p = some x)
    (hrun : exec a s.data (s.k.t.killed p) x = (s'.data, o))
    (hk : (code a).perform c s.k o = .ok s'.k)
    (hph : s'.phase = update s.phase p o.next) (hi : Inv a s')
    (hsilent : ∀ n, n ∈ (code a).chans → (∀ x', o ≠ .sleep n x') → Silent s n → Silent s' n) :
    Stirred a s' := by
  have hrest : OthersRest s.phase p := fun q hq y hy => h.inv.mon.others_rest hc hp hx hq hy
  have hrest' : OthersRest s'.phase p := by
    rw [hph]
    exact hrest.update _
  have hself : s'.phase p = o.next := by
    rw [hph, update_self]
  have hdata : s'.data = (exec a s.data (s.k.t.killed p) x).1 := by
    rw [hrun]
  have hout : (exec a s.data (s.k.t.killed p) x).2 = o := by
    rw [hrun]
  have hnone (hn : NoReader s.phase) : NoReader s'.phase := by
    intro q y hy
    by_contra hne
    by_cases hq : q = p
    · rw [hq, hself, ← hout] at hy
      exact exec_reading hy hne (hn p x hx)
    · rw [hph, update_of_ne hq] at hy
      exact hne (hn q y hy)
  have hheard := h.heard hrest
  rw [hx] at hheard
  refine stirred_of_heard hi hrest' ?_ ?_ ?_ ?_
  · rw [hself]
    refine hheard.exec h.inv.fifo.bound hrun (hsilent _ (nread_mem a)) (hsilent _ (nwrite_mem a))
      ?_ ?_ h.silent_closed ?_
    · exact fun hw => h.inv.mon.silent_woken (nread_mem a) hx hw hp
    · exact fun hw => h.inv.mon.silent_woken (nwrite_mem a) hx hw hp
    · intro hlarge
      simpa [spared, hc, hx, hlarge] using hs
  · intro hcl
    rw [hself, ← hout] at hcl
    exact absurd rfl (exec_close hcl)
  · intro hcl
    rw [hdata] at hcl
    rcases exec_readopen hcl with hcl' | rfl
    · exact hnone (h.closed hcl')
    · exact hnone (h.closing p hx)
  · intro q hq
    have hold (hq' : pending s.k (.addr (nreadAddr a)) q) :
        ∃ n, s'.phase q = some (.readSleep n) := by
      obtain ⟨n, hn⟩ := h.sleepers q hq'
      refine ⟨n, ?_⟩
      rw [hph, update_of_ne, hn]
      rintro rfl
      exact h.inv.mon.not_pending hc hp hq'
    cases o with
    | stay y =>
      rw [← Except.ok.inj hk] at hq
      exact hold hq
    | wakeup m y =>
      rcases h.inv.mon.sleeps.pending_step (tick_step h.inv.mon.inv hk) hq with hq' | ⟨-, -, b, hb⟩
      · exact hold hq'
      · cases hb
    | sleep m y =>
      rcases h.inv.mon.sleeps.pending_step (tick_step h.inv.mon.inv hk) hq with
        hq' | ⟨hc', -, b, hb⟩
      · exact hold hq'
      · cases hc.symm.trans hc'
        cases hb
        obtain ⟨n, rfl⟩ := exec_sleep hout
        exact ⟨n, hself⟩
    | leave r =>
      rcases h.inv.mon.sleeps.pending_step (tick_step h.inv.mon.inv hk) hq with hq' | ⟨-, -, b, hb⟩
      · exact hold hq'
      · cases hb

theorem Stirred.step (h : Stirred a s) (hl : endOpen s (c, e) = true)
    (hs : spared s (c, e) = true) (ho : (code a).step s (c, e) = .ok s') : Stirred a s' := by
  have hi := h.inv.step ho
  have hsilent := fun n hn hs => h.inv.mon.silent_step (n := n) hn hs ho
  obtain ⟨b, k', rfl, -⟩ | ⟨i, p, x, d, k', rfl, hc, hp, hx, he, hk, rfl⟩ |
    ⟨i, p, x, d, o, k', rfl, hc, hp, hx, hr, hk, rfl⟩ := Code.step_cases ho
  · exact h.sys ho
  · have hne (n : Nat) (hn : n ∈ (code a).chans) (hs : Silent s n) :=
      hsilent n hn hs fun _ q y _ _ _ hc' hy => by
        cases hc.symm.trans hc'
        cases hx.symm.trans hy
    exact h.enter hl hc hp hx he hk rfl hi (hne _ (nread_mem a)) (hne _ (nwrite_mem a))
  · have hrun : exec a s.data (s.k.t.killed p) x = (d, o) := by
      cases i <;> first | exact Option.some.inj hr | cases hr
    refine h.run hs hc hp hx hrun hk rfl hi fun n hn hne hs => ?_
    refine hsilent n hn hs fun j q y y' d' hj hc' hy hr' => ?_
    cases hc.symm.trans hc'
    cases hx.symm.trans hy
    cases hj
    cases hr.symm.trans hr'
    exact hne y' rfl

end Step

/-- Unless a process in a `pipewrite` of over PIPESIZE bytes is killed: while `p->lock` is free,
readers sleep only on an empty open pipe, and writers only on a full one. -/
theorem no_stranded
    (h : Exec (code a).step (fun s e => endOpen s e = true ∧ spared s e = true) (boot ticks) es s)
    (hl : s.k.lock (.other a) = none) (p : Slot) :
    (sleeping s.k (.addr (nreadAddr a)) p →
      s.data.pipe.empty = true ∧ s.data.pipe.writeopen = true) ∧
    (sleeping s.k (.addr (nwriteAddr a)) p →
      s.data.pipe.full = true ∧ s.data.pipe.readopen = true) := by
  have hi : Stirred a s :=
    h.invariant (stirred_boot a ticks) fun _ _ _ hi hl ho => hi.step hl.1 hl.2 ho
  have hh := hi.quiet fun q x hx => hi.inv.mon.all_rest hl hx
  constructor
  · intro hs
    rcases hh.readers with hr | hp | ho
    · exact absurd (.inl hs) (hr p)
    · exact hp
    · cases ho
  · intro hs
    rcases hh.writers with hw | hp | ho
    · exact absurd (.inl hs) (hw p)
    · exact hp
    · cases ho

def waitRun : List (Cpu × Event Input) :=
  goes 0 7 ++ does 0 [.read 1, .go] ++ goes 0 9

theorem no_stranded_waitRun : ∃ s,
    Exec (code 0).step (fun s e => endOpen s e = true ∧ spared s e = true) (boot 0) waitRun s ∧
      s.k.lock (.other 0) = none ∧ sleeping s.k (.addr (nreadAddr 0)) 0 ∧
      s.data.pipe.empty = true ∧ s.data.pipe.writeopen = true := by
  obtain ⟨s, hr, hs⟩ := (Option.any_eq_true _ _).1
    (show (runLegal (code 0).step (fun s e => endOpen s e && spared s e) (boot 0) waitRun).any
      (fun s => s.k.lock (.other 0) = none ∧ s.k.t.state 0 = .sleeping ∧
        s.k.t.chan 0 = some (.addr (nreadAddr 0))) = true by decide +kernel)
  obtain ⟨hl, hst, hch⟩ := of_decide_eq_true hs
  have he : Exec (code 0).step (fun s e => endOpen s e = true ∧ spared s e = true) (boot 0) waitRun s :=
    (exec_of_runLegal (code 0).step (fun s e => endOpen s e && spared s e) _ waitRun hr).mono
      fun _ _ h => Bool.and_eq_true_iff.1 h
  exact ⟨s, he, hl, ⟨hst, hch⟩, (no_stranded he hl 0).1 ⟨hst, hch⟩⟩

/-- The child, killed in a `pipewrite` of 513 bytes, fills the pipe and returns. -/
def killedRun : List (Cpu × Event Input) :=
  goes 0 7 ++ [(0, .sys (.call .fork))] ++ goes 0 3 ++ [(0, .sys (.memory true))] ++ goes 0 3 ++
  goes 1 7 ++ [(0, .sys (.call (.kill 2)))] ++ goes 0 3 ++ does 0 [.read 1, .go] ++ goes 0 9 ++
  does 1 (.write (List.replicate 513 0) :: List.replicate 513 .go)

theorem stranded_killedRun : ∃ s,
    Exec (code 0).step (fun s e => endOpen s e = true) (boot 0) killedRun s ∧
      s.k.lock (.other 0) = none ∧ s.k.lock .ptable = none ∧
      sleeping s.k (.addr (nreadAddr 0)) 0 ∧ s.data.pipe.empty = false := by
  obtain ⟨s, hr, hs⟩ := (Option.any_eq_true _ _).1
    (show (runLegal (code 0).step endOpen (boot 0) killedRun).any
      (fun s => s.k.lock (.other 0) = none ∧ s.k.lock .ptable = none ∧
        s.k.t.state 0 = .sleeping ∧ s.k.t.chan 0 = some (.addr (nreadAddr 0)) ∧
        s.data.pipe.empty = false) = true by decide +kernel)
  obtain ⟨hl, hpt, hst, hch, he⟩ := of_decide_eq_true hs
  exact ⟨s, exec_of_runLegal (code 0).step endOpen _ killedRun hr, hl, hpt, ⟨hst, hch⟩, he⟩

end Xv6.Pipes
