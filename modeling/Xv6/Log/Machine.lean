import Xv6.Log.Header
import Mathlib.Data.Finset.Insert

namespace Xv6.Log
open Function
set_option autoImplicit true

/-- What a process in log.c does next; every access to a lock and every block write is a step. -/
inductive Pc where
  | idle
  | beginAcquire
  | beginTest
  | sleepAcquire
  | sleepRelease
  | sleepSched
  | asleep
  | beginRelease
  | inOp
  | writeCheck (b : Nat)
  | writeAcquire (b : Nat)
  | writeBody (b : Nat)
  | writeRelease
  | endAcquire
  | endBody
  | endWakeup
  | endRelease (doCommit : Bool)
  | commit
  | writeLog (tail : Nat)
  | commitHead
  | installTrans (tail : Nat)
  | clear
  | eraseHead
  | doneAcquire
  | doneBody
  | doneWakeup
  | doneRelease
  deriving DecidableEq

/-- What `recover_from_log` does next. -/
inductive Recovery where
  | readHead
  | installTrans (tail : Nat)
  | clear
  | eraseHead
  deriving DecidableEq

/-- One `log_write`: process, number of its operation, block and new data. -/
structure Update where
  pid : Pid
  op : Nat
  block : Nat
  data : Block

/-- The log and its processes. From `opCount` on, a history: `issued` has every `log_write`,
`updates` those not yet committed, `groups` the committed groups. -/
structure St where
  lock : Option Pid
  ptable : Option Pid
  outstanding : Int
  committing : Bool
  lh : List Nat
  store : Store
  recovery : Option Recovery
  pc : Pid → Pc
  opCount : Pid → Nat
  opBlocks : Pid → Finset Nat
  logged : Finset Nat
  issued : List Update
  updates : List Update
  groups : List (List Update)

/-- What a process asks of the log; the buffer of block `b` has `d`. -/
inductive Call where
  | beginOp
  | logWrite (b : UInt32) (d : Block)
  | endOp

inductive Event where
  | call (p : Pid) (c : Call)
  | step (p : Pid)
  | kill (p : Pid)
  | crash
  | recover

/-- The log after `initlog` on a disk whose header is empty. -/
def boot (d : Nat → Block) : St where
  lock := none
  ptable := none
  outstanding := 0
  committing := false
  lh := []
  store := .boot d
  recovery := none
  pc := fun _ => .idle
  opCount := fun _ => 0
  opBlocks := fun _ => ∅
  logged := ∅
  issued := []
  updates := []
  groups := []

/-- After `wakeup1(&log)`: a woken sleeper takes `log.lock` again. -/
def roused (pc : Pid → Pc) (q : Pid) : Pc := if pc q = .asleep then .beginAcquire else pc q

namespace St

def goto (s : St) (p : Pid) (x : Pc) : St := { s with pc := update s.pc p x }

def acquire (s : St) (p : Pid) (x : Pc) : Except Fault St :=
  if s.lock = none then .ok { s.goto p x with lock := some p } else .error .blocked

def release (s : St) (p : Pid) (x : Pc) : St := { s.goto p x with lock := none }

/-- `wakeup(&log)` by `p`, under `ptable.lock`. -/
def wakeup (s : St) (p : Pid) (x : Pc) : Except Fault St :=
  if s.ptable = none then .ok { s with pc := update (roused s.pc) p x }
  else .error .blocked

/-- Both loops of log.c copy one block to another and write it out. -/
def copyBlock (s : St) (src dst : Nat) : St :=
  { s with store := s.store.put dst (s.store.view src) }

def writeHead (s : St) (L : LogArea) : St :=
  { s with store := s.store.put L.start (Xv6.writeHead s.lh (s.store.view L.start)) }

/-- A restart: only the disk is left, and `initlog` will recover. -/
def crash (s : St) : St :=
  { boot s.store.disk with
    recovery := some .readHead, opCount := s.opCount, issued := s.issued, groups := s.groups }

end St

/-- `begin_op` admits an operation if the log has room for it and those running. -/
def admits (s : St) : Bool :=
  !s.committing && decide (s.lh.length + (s.outstanding + 1) * maxOpBlocks ≤ logSize)

/-- The locked part of `log_write`. -/
def logWrite (s : St) (p : Pid) (b : Nat) : Except Fault St :=
  let i := s.lh.idxOf b
  if logSize ≤ i then .error .overflow
  else .ok { s.goto p .writeRelease with
    lh := if i = s.lh.length then s.lh ++ [b] else s.lh.set i b
    opBlocks := update s.opBlocks p (insert b (s.opBlocks p))
    logged := insert b s.logged }

/-- The first locked part of `end_op`. -/
def endOp (s : St) (p : Pid) : Except Fault St :=
  if s.committing then .error (.panic "log.committing")
  else if s.outstanding - 1 = 0 then
    .ok { s.goto p (.endRelease true) with outstanding := s.outstanding - 1, committing := true }
  else .ok { s.goto p .endWakeup with outstanding := s.outstanding - 1 }

def procStep (L : LogArea) (s : St) (p : Pid) : Except Fault St :=
  match s.pc p with
  | .idle | .inOp | .asleep => .error .blocked
  | .beginAcquire => s.acquire p .beginTest
  | .beginTest =>
    if admits s then .ok { s.goto p .beginRelease with outstanding := s.outstanding + 1 }
    else .ok (s.goto p .sleepAcquire)
  | .sleepAcquire =>
    if s.ptable = none then .ok { s.goto p .sleepRelease with ptable := some p }
    else .error .blocked
  | .sleepRelease => .ok (s.release p .sleepSched)
  | .sleepSched => .ok { s.goto p .asleep with ptable := none }
  | .beginRelease => .ok (s.release p .inOp)
  | .writeCheck b =>
    if logSize ≤ s.lh.length ∨ L.size ≤ s.lh.length + 1 then
      .error (.panic "too big a transaction")
    else if s.outstanding < 1 then .error (.panic "log_write outside of trans")
    else .ok (s.goto p (.writeAcquire b))
  | .writeAcquire b => s.acquire p (.writeBody b)
  | .writeBody b => logWrite s p b
  | .writeRelease => .ok (s.release p .inOp)
  | .endAcquire => s.acquire p .endBody
  | .endBody => endOp s p
  | .endWakeup => s.wakeup p (.endRelease false)
  | .endRelease doCommit => .ok (s.release p (if doCommit then .commit else .idle))
  | .commit => .ok (s.goto p (if 0 < s.lh.length then .writeLog 0 else .doneAcquire))
  | .writeLog tail =>
    match s.lh[tail]? with
    | some b => .ok ((s.copyBlock b (L.block tail)).goto p (.writeLog (tail + 1)))
    | none => .ok (s.goto p .commitHead)
  | .commitHead =>
    .ok { (s.writeHead L).goto p (.installTrans 0) with
      updates := [], groups := s.groups ++ [s.updates] }
  | .installTrans tail =>
    match s.lh[tail]? with
    | some b => .ok ((s.copyBlock (L.block tail) b).goto p (.installTrans (tail + 1)))
    | none => .ok (s.goto p .clear)
  | .clear => .ok { s.goto p .eraseHead with lh := [], logged := ∅ }
  | .eraseHead => .ok ((s.writeHead L).goto p .doneAcquire)
  | .doneAcquire => s.acquire p .doneBody
  | .doneBody => .ok { s.goto p .doneWakeup with committing := false }
  | .doneWakeup => s.wakeup p .doneRelease
  | .doneRelease => .ok (s.release p .idle)

def callStep (s : St) (p : Pid) (c : Call) : Except Fault St :=
  match s.pc p, c with
  | .idle, .beginOp =>
    .ok { s.goto p .beginAcquire with
      opCount := update s.opCount p (s.opCount p + 1)
      opBlocks := update s.opBlocks p ∅ }
  | .inOp, .logWrite b d =>
    .ok { s.goto p (.writeCheck b.toNat) with
      store := s.store.modify b.toNat d
      issued := s.issued ++ [⟨p, s.opCount p, b.toNat, d⟩]
      updates := s.updates ++ [⟨p, s.opCount p, b.toNat, d⟩] }
  | .inOp, .endOp => .ok (s.goto p .endAcquire)
  | _, _ => .error .blocked

/-- `recover_from_log`; `read_head` trusts the count on the disk. -/
def recoverStep (L : LogArea) (s : St) : Recovery → Except Fault St
  | .readHead =>
    let lh := Xv6.readHead (s.store.view L.start)
    if logSize < lh.length then .error .overflow
    else .ok { s with lh := lh, recovery := some (.installTrans 0) }
  | .installTrans tail =>
    match s.lh[tail]? with
    | some b =>
      .ok { s.copyBlock (L.block tail) b with recovery := some (.installTrans (tail + 1)) }
    | none => .ok { s with recovery := some .clear }
  | .clear => .ok { s with lh := [], recovery := some .eraseHead }
  | .eraseHead => .ok { s.writeHead L with recovery := none }

def step (L : LogArea) (s : St) : Event → Except Fault St
  | .crash => .ok s.crash
  | .recover =>
    match s.recovery with
    | some r => recoverStep L s r
    | none => .error .blocked
  | .call p c => if s.recovery = none then callStep s p c else .error .blocked
  | .step p => if s.recovery = none then procStep L s p else .error .blocked
  | .kill p =>
    if s.recovery = none ∧ s.pc p = .asleep ∧ s.ptable = none then
      .ok (s.goto p .beginAcquire)
    else .error .blocked

inductive Moves (L : LogArea) (s : St) (p : Pid) : St → Prop where
  | beginAcquire (hp : s.pc p = .beginAcquire) (hl : s.lock = none) :
      Moves L s p { s.goto p .beginTest with lock := some p }
  | enter (hp : s.pc p = .beginTest) (ha : admits s = true) :
      Moves L s p { s.goto p .beginRelease with outstanding := s.outstanding + 1 }
  | refuse (hp : s.pc p = .beginTest) (ha : admits s = false) :
      Moves L s p (s.goto p .sleepAcquire)
  | sleepAcquire (hp : s.pc p = .sleepAcquire) (ht : s.ptable = none) :
      Moves L s p { s.goto p .sleepRelease with ptable := some p }
  | sleepRelease (hp : s.pc p = .sleepRelease) : Moves L s p (s.release p .sleepSched)
  | sleepSched (hp : s.pc p = .sleepSched) :
      Moves L s p { s.goto p .asleep with ptable := none }
  | beginRelease (hp : s.pc p = .beginRelease) : Moves L s p (s.release p .inOp)
  | writeCheck (hp : s.pc p = .writeCheck b) (hn : s.lh.length < logSize)
      (hz : s.lh.length + 1 < L.size) : Moves L s p (s.goto p (.writeAcquire b))
  | writeAcquire (hp : s.pc p = .writeAcquire b) (hl : s.lock = none) :
      Moves L s p { s.goto p (.writeBody b) with lock := some p }
  | writeBody (hp : s.pc p = .writeBody b) (hi : s.lh.idxOf b < logSize) :
      Moves L s p { s.goto p .writeRelease with
        lh := if b ∈ s.lh then s.lh else s.lh ++ [b]
        opBlocks := update s.opBlocks p (insert b (s.opBlocks p))
        logged := insert b s.logged }
  | writeRelease (hp : s.pc p = .writeRelease) : Moves L s p (s.release p .inOp)
  | endAcquire (hp : s.pc p = .endAcquire) (hl : s.lock = none) :
      Moves L s p { s.goto p .endBody with lock := some p }
  | endLast (hp : s.pc p = .endBody) (hc : s.committing = false)
      (ho : s.outstanding - 1 = 0) :
      Moves L s p { s.goto p (.endRelease true) with
        outstanding := s.outstanding - 1, committing := true }
  | endOther (hp : s.pc p = .endBody) (hc : s.committing = false)
      (ho : s.outstanding - 1 ≠ 0) :
      Moves L s p { s.goto p .endWakeup with outstanding := s.outstanding - 1 }
  | endWakeup (hp : s.pc p = .endWakeup) (ht : s.ptable = none) :
      Moves L s p { s with pc := update (roused s.pc) p (.endRelease false) }
  | endRelease (hp : s.pc p = .endRelease c) :
      Moves L s p (s.release p (if c then .commit else .idle))
  | commit (hp : s.pc p = .commit) (hn : 0 < s.lh.length) :
      Moves L s p (s.goto p (.writeLog 0))
  | commitNothing (hp : s.pc p = .commit) (hn : s.lh = []) :
      Moves L s p (s.goto p .doneAcquire)
  | writeLog (hp : s.pc p = .writeLog tail) (hb : s.lh[tail]? = some b) :
      Moves L s p ((s.copyBlock b (L.block tail)).goto p (.writeLog (tail + 1)))
  | writeLogDone (hp : s.pc p = .writeLog tail) (hb : s.lh[tail]? = none) :
      Moves L s p (s.goto p .commitHead)
  | commitHead (hp : s.pc p = .commitHead) :
      Moves L s p
        { (s.writeHead L).goto p (.installTrans 0) with
          updates := [], groups := s.groups ++ [s.updates] }
  | installTrans (hp : s.pc p = .installTrans tail) (hb : s.lh[tail]? = some b) :
      Moves L s p ((s.copyBlock (L.block tail) b).goto p (.installTrans (tail + 1)))
  | installTransDone (hp : s.pc p = .installTrans tail) (hb : s.lh[tail]? = none) :
      Moves L s p (s.goto p .clear)
  | clear (hp : s.pc p = .clear) :
      Moves L s p { s.goto p .eraseHead with lh := [], logged := ∅ }
  | eraseHead (hp : s.pc p = .eraseHead) :
      Moves L s p ((s.writeHead L).goto p .doneAcquire)
  | doneAcquire (hp : s.pc p = .doneAcquire) (hl : s.lock = none) :
      Moves L s p { s.goto p .doneBody with lock := some p }
  | doneBody (hp : s.pc p = .doneBody) :
      Moves L s p { s.goto p .doneWakeup with committing := false }
  | doneWakeup (hp : s.pc p = .doneWakeup) (ht : s.ptable = none) :
      Moves L s p { s with pc := update (roused s.pc) p .doneRelease }
  | doneRelease (hp : s.pc p = .doneRelease) : Moves L s p (s.release p .idle)

/-- What a completed step of a recovery does. -/
inductive Recovers (L : LogArea) (s : St) : Recovery → St → Prop where
  | readHead (hn : (Xv6.readHead (s.store.view L.start)).length ≤ logSize) :
      Recovers L s .readHead
        { s with
          lh := Xv6.readHead (s.store.view L.start), recovery := some (.installTrans 0) }
  | installTrans (hb : s.lh[tail]? = some b) :
      Recovers L s (.installTrans tail)
        { s.copyBlock (L.block tail) b with recovery := some (.installTrans (tail + 1)) }
  | installTransDone (hb : s.lh[tail]? = none) :
      Recovers L s (.installTrans tail) { s with recovery := some .clear }
  | clear : Recovers L s .clear { s with lh := [], recovery := some .eraseHead }
  | eraseHead : Recovers L s .eraseHead { s.writeHead L with recovery := none }

theorem recovers_of_recoverStep (h : recoverStep L s r = .ok s') : Recovers L s r s' := by
  cases r with simp only [recoverStep] at h
  | readHead =>
    split at h
    · cases h
    · next hn =>
      cases h
      exact .readHead (by omega)
  | installTrans tail =>
    split at h
    · next hb =>
      cases h
      exact .installTrans hb
    · next hb =>
      cases h
      exact .installTransDone hb
  | clear =>
    cases h
    exact .clear
  | eraseHead =>
    cases h
    exact .eraseHead

theorem St.acquire_ok (h : St.acquire s p x = .ok s') :
    s.lock = none ∧ s' = { s.goto p x with lock := some p } := by
  rw [St.acquire] at h
  split at h
  · next hl =>
    cases h
    exact ⟨hl, rfl⟩
  · cases h

theorem St.wakeup_ok (h : St.wakeup s p x = .ok s') :
    s.ptable = none ∧ s' = { s with pc := update (roused s.pc) p x } := by
  rw [St.wakeup] at h
  split at h
  · next ht =>
    cases h
    exact ⟨ht, rfl⟩
  · cases h

theorem logWrite_ok (h : logWrite s p b = .ok s') :
    s.lh.idxOf b < logSize ∧ s' = { s.goto p .writeRelease with
      lh := if b ∈ s.lh then s.lh else s.lh ++ [b]
      opBlocks := update s.opBlocks p (insert b (s.opBlocks p))
      logged := insert b s.logged } := by
  simp only [logWrite] at h
  split at h
  · cases h
  · next hi =>
    cases h
    refine ⟨by omega, ?_⟩
    by_cases hb : b ∈ s.lh
    · have hi' : s.lh.idxOf b < s.lh.length := List.idxOf_lt_length_iff.2 hb
      have hset : s.lh.set (s.lh.idxOf b) b = s.lh :=
        (congrArg _ (List.getElem_idxOf hi').symm).trans (List.set_getElem_self hi')
      simp only [hb, hi'.ne, ↓reduceIte, hset]
    · simp only [List.idxOf_eq_length hb, hb, ↓reduceIte]

theorem moves_of_procStep (h : procStep L s p = .ok s') : Moves L s p s' := by
  rw [procStep] at h
  cases hp : s.pc p with simp only [hp] at h
  | idle => cases h
  | inOp => cases h
  | asleep => cases h
  | beginAcquire =>
    obtain ⟨hl, rfl⟩ := St.acquire_ok h
    exact .beginAcquire hp hl
  | beginTest =>
    split at h
    · next ha =>
      cases h
      exact .enter hp ha
    · next ha =>
      cases h
      exact .refuse hp (Bool.eq_false_of_not_eq_true ha)
  | sleepAcquire =>
    split at h
    · next ht =>
      cases h
      exact .sleepAcquire hp ht
    · cases h
  | sleepRelease =>
    cases h
    exact .sleepRelease hp
  | sleepSched =>
    cases h
    exact .sleepSched hp
  | beginRelease =>
    cases h
    exact .beginRelease hp
  | writeCheck b =>
    split at h
    · cases h
    · next hn =>
      split at h
      · cases h
      · cases h
        exact .writeCheck hp (by omega) (by omega)
  | writeAcquire b =>
    obtain ⟨hl, rfl⟩ := St.acquire_ok h
    exact .writeAcquire hp hl
  | writeBody b =>
    obtain ⟨hi, rfl⟩ := logWrite_ok h
    exact .writeBody hp hi
  | writeRelease =>
    cases h
    exact .writeRelease hp
  | endAcquire =>
    obtain ⟨hl, rfl⟩ := St.acquire_ok h
    exact .endAcquire hp hl
  | endBody =>
    rw [endOp] at h
    split at h
    · cases h
    · next hc =>
      split at h
      · next ho =>
        cases h
        exact .endLast hp (Bool.eq_false_of_not_eq_true hc) ho
      · next ho =>
        cases h
        exact .endOther hp (Bool.eq_false_of_not_eq_true hc) ho
  | endWakeup =>
    obtain ⟨ht, rfl⟩ := St.wakeup_ok h
    exact .endWakeup hp ht
  | endRelease c =>
    cases h
    exact .endRelease hp
  | commit =>
    cases h
    split
    · next hn => exact .commit hp hn
    · next hn => exact .commitNothing hp (List.length_eq_zero_iff.1 (by omega))
  | writeLog tail =>
    split at h
    · next hb =>
      cases h
      exact .writeLog hp hb
    · next hb =>
      cases h
      exact .writeLogDone hp hb
  | commitHead =>
    cases h
    exact .commitHead hp
  | installTrans tail =>
    split at h
    · next hb =>
      cases h
      exact .installTrans hp hb
    · next hb =>
      cases h
      exact .installTransDone hp hb
  | clear =>
    cases h
    exact .clear hp
  | eraseHead =>
    cases h
    exact .eraseHead hp
  | doneAcquire =>
    obtain ⟨hl, rfl⟩ := St.acquire_ok h
    exact .doneAcquire hp hl
  | doneBody =>
    cases h
    exact .doneBody hp
  | doneWakeup =>
    obtain ⟨ht, rfl⟩ := St.wakeup_ok h
    exact .doneWakeup hp ht
  | doneRelease =>
    cases h
    exact .doneRelease hp

inductive Stops (L : LogArea) (s : St) (p : Pid) : Fault → Prop where
  | blocked : Stops L s p .blocked
  | tooBig (hp : s.pc p = .writeCheck b)
      (hn : logSize ≤ s.lh.length ∨ L.size ≤ s.lh.length + 1) :
      Stops L s p (.panic "too big a transaction")
  | outside (hp : s.pc p = .writeCheck b) (ho : s.outstanding < 1) :
      Stops L s p (.panic "log_write outside of trans")
  | overflow (hp : s.pc p = .writeBody b) (hi : logSize ≤ s.lh.idxOf b) :
      Stops L s p .overflow
  | committing (hp : s.pc p = .endBody) (hc : s.committing = true) :
      Stops L s p (.panic "log.committing")

theorem stops_of_procStep (h : procStep L s p = .error f) : Stops L s p f := by
  cases hp : s.pc p with simp only [procStep, hp, St.acquire, St.wakeup, logWrite, endOp] at h
  | writeCheck b =>
    split at h
    · next hn =>
      cases h
      exact .tooBig hp hn
    · split at h
      · next ho =>
        cases h
        exact .outside hp ho
      · cases h
  | writeBody b =>
    split at h
    · next hi =>
      cases h
      exact .overflow hp hi
    · cases h
  | endBody =>
    split at h
    · next hc =>
      cases h
      exact .committing hp hc
    · split at h <;> cases h
  | idle | inOp | asleep =>
    cases h
    exact .blocked
  | beginAcquire | sleepAcquire | writeAcquire | endAcquire | endWakeup | doneAcquire
  | doneWakeup =>
    split at h
    · cases h
    · cases h
      exact .blocked
  | beginTest | writeLog | installTrans => split at h <;> cases h
  | _ => cases h

inductive Calls (s : St) (p : Pid) : Call → St → Prop where
  | beginOp (hp : s.pc p = .idle) :
      Calls s p .beginOp { s.goto p .beginAcquire with
        opCount := update s.opCount p (s.opCount p + 1)
        opBlocks := update s.opBlocks p ∅ }
  | logWrite (hp : s.pc p = .inOp) :
      Calls s p (.logWrite b d) { s.goto p (.writeCheck b.toNat) with
        store := s.store.modify b.toNat d
        issued := s.issued ++ [⟨p, s.opCount p, b.toNat, d⟩]
        updates := s.updates ++ [⟨p, s.opCount p, b.toNat, d⟩] }
  | endOp (hp : s.pc p = .inOp) : Calls s p .endOp (s.goto p .endAcquire)

theorem calls_of_callStep (h : callStep s p c = .ok s') : Calls s p c s' := by
  simp only [callStep] at h
  split at h
  · next hp =>
    cases h
    exact .beginOp hp
  · next hp =>
    cases h
    exact .logWrite hp
  · next hp =>
    cases h
    exact .endOp hp
  · cases h

inductive Steps (L : LogArea) (s : St) : Event → St → Prop where
  | crash : Steps L s .crash s.crash
  | recover (hr : s.recovery = some r) (h : Recovers L s r s') : Steps L s .recover s'
  | call (hr : s.recovery = none) (h : Calls s p c s') : Steps L s (.call p c) s'
  | step (hr : s.recovery = none) (h : Moves L s p s') : Steps L s (.step p) s'
  | kill (hr : s.recovery = none) (hp : s.pc p = .asleep) (ht : s.ptable = none) :
      Steps L s (.kill p) (s.goto p .beginAcquire)

theorem steps_of_step (h : step L s e = .ok s') : Steps L s e s' := by
  cases e with simp only [step] at h
  | crash =>
    cases h
    exact .crash
  | recover =>
    split at h
    · next hr => exact .recover hr (recovers_of_recoverStep h)
    · cases h
  | call p c =>
    split at h
    · next hr => exact .call hr (calls_of_callStep h)
    · cases h
  | step p =>
    split at h
    · next hr => exact .step hr (moves_of_procStep h)
    · cases h
  | kill p =>
    split at h
    · next hc =>
      cases h
      exact .kill hc.1 hc.2.1 hc.2.2
    · cases h

end Xv6.Log
