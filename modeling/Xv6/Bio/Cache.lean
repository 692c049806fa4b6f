import Xv6.Lib.Exec
import Xv6.Store
import Mathlib.Data.Finset.Basic

namespace Xv6.Bio
open Function
set_option autoImplicit true

abbrev rootDev : Nat := 1

abbrev BufId := Fin nBuf

/-- `struct buf`; `holder` is the process that has locked its sleep lock. -/
structure Buf where
  valid : Bool
  dirty : Bool
  dev : Nat
  blockno : Nat
  holder : Option Pid
  refcnt : Nat
  data : Block

/-- What a process in bio.c does next; `k` counts the buffers that a loop has looked at. -/
inductive Pc where
  | idle
  | getAcquire (dev n : Nat)
  | find (dev n k : Nat)
  | recycle (dev n k : Nat)
  | take (dev n : Nat) (i : BufId)
  | getRelease (dev n : Nat) (i : BufId)
  | lockBuf (dev n : Nat) (i : BufId)
  | fill (dev n : Nat) (i : BufId)
  | writeOut (i : BufId)
  | logWrite (i : BufId)
  | relAcquire (i : BufId)
  | relBody (i : BufId)
  | relRelease
  deriving DecidableEq

/-- The buffer cache, with `lru` from `head.next` to `head.prev`. From `touched` on, a history: the
buffers changed since last logged or written, the data last left in a block, and the blocks logged
and not yet written. -/
structure St where
  lock : Option Pid
  buf : BufId → Buf
  lru : List BufId
  disk : Nat → Nat → Block
  pc : Pid → Pc
  touched : BufId → Bool
  left : Nat → Block
  unwritten : Finset Nat

inductive Call where
  | bread (dev n : Nat)
  | modify (i : BufId) (d : Block)
  | logWrite (i : BufId)
  | bwrite (i : BufId)
  | brelse (i : BufId)

inductive Event where
  | call (p : Pid) (c : Call)
  | step (p : Pid)

/-- `binit`: every buffer is zero, and the last one comes first. -/
def boot (disk : Nat → Nat → Block) : St where
  lock := none
  buf := fun _ => ⟨false, false, 0, 0, none, 0, fun _ => 0⟩
  lru := (List.finRange nBuf).reverse
  disk := disk
  pc := fun _ => .idle
  touched := fun _ => false
  left := disk rootDev
  unwritten := ∅

namespace St

def goto (s : St) (p : Pid) (x : Pc) : St := { s with pc := update s.pc p x }

def setBuf (s : St) (i : BufId) (b : Buf) : St := { s with buf := update s.buf i b }

def acquire (s : St) (p : Pid) (x : Pc) : Except Fault St :=
  if s.lock = none then .ok { s.goto p x with lock := some p } else .error .blocked

def release (s : St) (p : Pid) (x : Pc) : St := { s.goto p x with lock := none }

def iderw (s : St) (i : BufId) : St :=
  let b := s.buf i
  if b.dirty then
    { s.setBuf i { b with valid := true, dirty := false } with
      disk := update s.disk b.dev (update (s.disk b.dev) b.blockno b.data) }
  else s.setBuf i { b with valid := true, data := s.disk b.dev b.blockno }

end St

def procStep (s : St) (p : Pid) : Except Fault St :=
  match s.pc p with
  | .idle => .error .blocked
  | .getAcquire dev n => s.acquire p (.find dev n 0)
  | .find dev n k =>
    match s.lru[k]? with
    | some i =>
      if (s.buf i).dev = dev ∧ (s.buf i).blockno = n then
        .ok ((s.setBuf i { s.buf i with refcnt := (s.buf i).refcnt + 1 }).goto p
          (.getRelease dev n i))
      else .ok (s.goto p (.find dev n (k + 1)))
    | none => .ok (s.goto p (.recycle dev n 0))
  | .recycle dev n k =>
    match s.lru.reverse[k]? with
    | some i =>
      if (s.buf i).refcnt = 0 ∧ (s.buf i).dirty = false then .ok (s.goto p (.take dev n i))
      else .ok (s.goto p (.recycle dev n (k + 1)))
    | none => .error (.panic "bget: no buffers")
  | .take dev n i =>
    .ok ((s.setBuf i { s.buf i with
      dev := dev, blockno := n, valid := false, dirty := false, refcnt := 1 }).goto p
        (.getRelease dev n i))
  | .getRelease dev n i => .ok (s.release p (.lockBuf dev n i))
  | .lockBuf dev n i =>
    if (s.buf i).holder = none then
      .ok ((s.setBuf i { s.buf i with holder := some p }).goto p (.fill dev n i))
    else .error .blocked
  | .fill _ _ i =>
    if (s.buf i).valid then .ok (s.goto p .idle) else .ok ((s.iderw i).goto p .idle)
  | .writeOut i =>
    .ok { (s.iderw i).goto p .idle with
      touched := update s.touched i false
      unwritten := s.unwritten.erase (s.buf i).blockno }
  | .logWrite i =>
    .ok { (s.setBuf i { s.buf i with dirty := true }).goto p .idle with
      touched := update s.touched i false
      unwritten := insert (s.buf i).blockno s.unwritten }
  | .relAcquire i => s.acquire p (.relBody i)
  | .relBody i =>
    .ok { (s.setBuf i { s.buf i with refcnt := (s.buf i).refcnt - 1 }).goto p .relRelease with
      lru := if (s.buf i).refcnt - 1 = 0 then i :: s.lru.erase i else s.lru }
  | .relRelease => .ok (s.release p .idle)

def callStep (s : St) (p : Pid) (c : Call) : Except Fault St :=
  if s.pc p = .idle then
    match c with
    | .bread dev n => .ok (s.goto p (.getAcquire dev n))
    | .modify i d =>
      .ok { s.setBuf i { s.buf i with data := d } with
        touched := update s.touched i true }
    | .logWrite i => .ok (s.goto p (.logWrite i))
    | .bwrite i =>
      if (s.buf i).holder = some p then
        .ok ((s.setBuf i { s.buf i with dirty := true }).goto p (.writeOut i))
      else .error (.panic "bwrite")
    | .brelse i =>
      if (s.buf i).holder = some p then
        .ok { (s.setBuf i { s.buf i with holder := none }).goto p (.relAcquire i) with
          left := update s.left (s.buf i).blockno (s.buf i).data }
      else .error (.panic "brelse")
  else .error .blocked

def step (s : St) : Event → Except Fault St
  | .call p c => callStep s p c
  | .step p => procStep s p

/-- Only buffers held are changed and logged, and none is released changed and neither logged nor
written. -/
def legal (s : St) : Event → Bool
  | .call _ (.bread dev _) => dev == rootDev
  | .call p (.modify i _) => (s.buf i).holder == some p
  | .call p (.logWrite i) => (s.buf i).holder == some p
  | .call _ (.brelse i) => !s.touched i
  | _ => true

inductive Moves (s : St) (p : Pid) : St → Prop where
  | getAcquire (hp : s.pc p = .getAcquire dev n) (hl : s.lock = none) :
      Moves s p { s.goto p (.find dev n 0) with lock := some p }
  | hit (hp : s.pc p = .find dev n k) (hi : s.lru[k]? = some i) (hd : (s.buf i).dev = dev)
      (hn : (s.buf i).blockno = n) :
      Moves s p ((s.setBuf i { s.buf i with refcnt := (s.buf i).refcnt + 1 }).goto p
        (.getRelease dev n i))
  | miss (hp : s.pc p = .find dev n k) (hi : s.lru[k]? = some i)
      (hm : ¬((s.buf i).dev = dev ∧ (s.buf i).blockno = n)) :
      Moves s p (s.goto p (.find dev n (k + 1)))
  | notCached (hp : s.pc p = .find dev n k) (hi : s.lru[k]? = none) :
      Moves s p (s.goto p (.recycle dev n 0))
  | unused (hp : s.pc p = .recycle dev n k) (hr : (s.buf i).refcnt = 0)
      (hd : (s.buf i).dirty = false) : Moves s p (s.goto p (.take dev n i))
  | inUse (hp : s.pc p = .recycle dev n k) : Moves s p (s.goto p (.recycle dev n (k + 1)))
  | take (hp : s.pc p = .take dev n i) :
      Moves s p ((s.setBuf i { s.buf i with
        dev := dev, blockno := n, valid := false, dirty := false, refcnt := 1 }).goto p
          (.getRelease dev n i))
  | getRelease (hp : s.pc p = .getRelease dev n i) :
      Moves s p (s.release p (.lockBuf dev n i))
  | lockBuf (hp : s.pc p = .lockBuf dev n i) (hh : (s.buf i).holder = none) :
      Moves s p ((s.setBuf i { s.buf i with holder := some p }).goto p (.fill dev n i))
  | filled (hp : s.pc p = .fill dev n i) (hv : (s.buf i).valid = true) :
      Moves s p (s.goto p .idle)
  | fill (hp : s.pc p = .fill dev n i) (hv : (s.buf i).valid = false) :
      Moves s p ((s.iderw i).goto p .idle)
  | writeOut (hp : s.pc p = .writeOut i) :
      Moves s p { (s.iderw i).goto p .idle with
        touched := update s.touched i false
        unwritten := s.unwritten.erase (s.buf i).blockno }
  | logWrite (hp : s.pc p = .logWrite i) :
      Moves s p { (s.setBuf i { s.buf i with dirty := true }).goto p .idle with
        touched := update s.touched i false
        unwritten := insert (s.buf i).blockno s.unwritten }
  | relAcquire (hp : s.pc p = .relAcquire i) (hl : s.lock = none) :
      Moves s p { s.goto p (.relBody i) with lock := some p }
  | relBody (hp : s.pc p = .relBody i) :
      Moves s p
        { (s.setBuf i { s.buf i with refcnt := (s.buf i).refcnt - 1 }).goto p .relRelease with
          lru := if (s.buf i).refcnt - 1 = 0 then i :: s.lru.erase i else s.lru }
  | relRelease (hp : s.pc p = .relRelease) : Moves s p (s.release p .idle)

theorem St.acquire_ok (h : St.acquire s p x = .ok s') :
    s.lock = none ∧ s' = { s.goto p x with lock := some p } := by
  rw [St.acquire] at h
  split at h
  · next hl =>
    cases h
    exact ⟨hl, rfl⟩
  · cases h

theorem moves_of_procStep (h : procStep s p = .ok s') : Moves s p s' := by
  rw [procStep] at h
  cases hp : s.pc p with simp only [hp] at h
  | idle => cases h
  | getAcquire dev n =>
    obtain ⟨hl, rfl⟩ := St.acquire_ok h
    exact .getAcquire hp hl
  | find dev n k =>
    split at h
    · next hi =>
      split at h
      · next hm =>
        cases h
        exact .hit hp hi hm.1 hm.2
      · next hm =>
        cases h
        exact .miss hp hi hm
    · next hi =>
      cases h
      exact .notCached hp hi
  | recycle dev n k =>
    split at h
    · split at h
      · next hr =>
        cases h
        exact .unused hp hr.1 hr.2
      · cases h
        exact .inUse hp
    · cases h
  | take dev n i =>
    cases h
    exact .take hp
  | getRelease dev n i =>
    cases h
    exact .getRelease hp
  | lockBuf dev n i =>
    split at h
    · next hh =>
      cases h
      exact .lockBuf hp hh
    · cases h
  | fill dev n i =>
    split at h
    · next hv =>
      cases h
      exact .filled hp hv
    · next hv =>
      cases h
      exact .fill hp (Bool.eq_false_of_not_eq_true hv)
  | writeOut i =>
    cases h
    exact .writeOut hp
  | logWrite i =>
    cases h
    exact .logWrite hp
  | relAcquire i =>
    obtain ⟨hl, rfl⟩ := St.acquire_ok h
    exact .relAcquire hp hl
  | relBody i =>
    cases h
    exact .relBody hp
  | relRelease =>
    cases h
    exact .relRelease hp

inductive Calls (s : St) (p : Pid) : Call → St → Prop where
  | bread : Calls s p (.bread rootDev n) (s.goto p (.getAcquire rootDev n))
  | modify (hh : (s.buf i).holder = some p) :
      Calls s p (.modify i d) { s.setBuf i { s.buf i with data := d } with
        touched := update s.touched i true }
  | logWrite (hh : (s.buf i).holder = some p) :
      Calls s p (.logWrite i) (s.goto p (.logWrite i))
  | bwrite (hh : (s.buf i).holder = some p) :
      Calls s p (.bwrite i)
        ((s.setBuf i { s.buf i with dirty := true }).goto p (.writeOut i))
  | brelse (hh : (s.buf i).holder = some p) (ht : s.touched i = false) :
      Calls s p (.brelse i)
        { (s.setBuf i { s.buf i with holder := none }).goto p (.relAcquire i) with
          left := update s.left (s.buf i).blockno (s.buf i).data }

theorem calls_of_callStep (h : callStep s p c = .ok s') (hl : legal s (.call p c) = true) :
    s.pc p = .idle ∧ Calls s p c s' := by
  by_cases hp : s.pc p = .idle
  · refine ⟨hp, ?_⟩
    simp only [callStep, hp, ↓reduceIte] at h
    cases c with simp only [legal, beq_iff_eq, Bool.not_eq_true'] at h hl
    | bread dev n =>
      subst hl
      cases h
      exact .bread
    | modify i d =>
      cases h
      exact .modify hl
    | logWrite i =>
      cases h
      exact .logWrite hl
    | bwrite i =>
      split at h
      · next hh =>
        cases h
        exact .bwrite hh
      · cases h
    | brelse i =>
      split at h
      · next hh =>
        cases h
        exact .brelse hh hl
      · cases h
  · simp only [callStep, hp, ↓reduceIte] at h
    cases h

end Xv6.Bio
