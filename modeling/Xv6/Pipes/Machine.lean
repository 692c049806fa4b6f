import Xv6.Lib.Ring
import Xv6.Sched.Monitor

namespace Xv6.Pipes
open Lib Sched
set_option autoImplicit true

abbrev pipeSize : Nat := 512

structure Pipe where
  data : Fin pipeSize → UInt8
  nread : UInt32
  nwrite : UInt32
  readopen : Bool
  writeopen : Bool

def pipealloc : Pipe where
  data _ := 0
  nread := 0
  nwrite := 0
  readopen := true
  writeopen := true

def Pipe.full (p : Pipe) : Bool :=
  p.nwrite = p.nread + 512

def Pipe.empty (p : Pipe) : Bool :=
  p.nread = p.nwrite

/-- `p->data[p->nwrite++ % PIPESIZE] = b`. -/
def Pipe.put (p : Pipe) (b : UInt8) : Pipe :=
  { p with
    data := Function.update p.data (slot pipeSize p.nwrite) b
    nwrite := p.nwrite + 1 }

/-- `p->data[p->nread++ % PIPESIZE]`. -/
def Pipe.front (p : Pipe) : UInt8 :=
  p.data (slot pipeSize p.nread)

def Pipe.get (p : Pipe) : Pipe :=
  { p with nread := p.nread + 1 }

def Pipe.contents (p : Pipe) : List UInt8 :=
  window p.data p.nread (ahead p.nread p.nwrite)

/-- The pipe, with its history: the buffers written, the bytes stored, each with its call, the bytes
taken, and those returned. -/
structure St where
  pipe : Pipe
  writes : List (List UInt8)
  stored : List (Nat × UInt8)
  taken : List UInt8
  reads : List (List UInt8)

/-- Where a process is in `pipewrite`, with `i` bytes stored, `piperead` or `pipeclose`. -/
inductive Phase where
  | write (call : Nat) (addr : List UInt8) (i : Nat)
  | writeFull (call : Nat) (addr : List UInt8) (i : Nat)
  | writeSleep (call : Nat) (addr : List UInt8) (i : Nat)
  | writeDone (addr : List UInt8)
  | read (n : Nat)
  | readSleep (n : Nat)
  | readCopy (n : Nat) (got : List UInt8)
  | readDone (n : Nat) (got : List UInt8)
  | close (writable : Bool)
  | closeDone (writable : Bool)
  deriving DecidableEq

inductive Input where
  | write (addr : List UInt8)
  | read (n : Nat)
  | close (writable : Bool)
  | go

section Code
variable (a : Nat)

/-- The addresses of `p->nread` and `p->nwrite`, for a pipe at `a`. -/
def nreadAddr : Nat := a + 564
def nwriteAddr : Nat := a + 568

def enter (s : St) : Input → Option (St × Phase)
  | .write addr => some ({ s with writes := s.writes ++ [addr] }, .write s.writes.length addr 0)
  | .read n => some (s, .read n)
  | .close writable => some (s, .close writable)
  | .go => none

def pipewrite (s : St) (killed : Bool) (call : Nat) (addr : List UInt8) (i : Nat) : St × Out Phase :=
  match addr[i]? with
  | some b =>
    if s.pipe.full then
      if !s.pipe.readopen || killed then (s, .leave (-1))
      else (s, .wakeup (nreadAddr a) (.writeFull call addr i))
    else
      ({ s with pipe := s.pipe.put b, stored := s.stored ++ [(call, b)] },
        .stay (.write call addr (i + 1)))
  | none => (s, .wakeup (nreadAddr a) (.writeDone addr))

def piperead (s : St) (killed : Bool) (n : Nat) : St × Out Phase :=
  if s.pipe.empty && s.pipe.writeopen then
    if killed then (s, .leave (-1)) else (s, .sleep (nreadAddr a) (.readSleep n))
  else (s, .stay (.readCopy n []))

/-- The loop of `piperead` that copies bytes. -/
def copy (s : St) (n : Nat) (got : List UInt8) : St × Out Phase :=
  if got.length < n ∧ s.pipe.empty = false then
    ({ s with pipe := s.pipe.get, taken := s.taken ++ [s.pipe.front] },
      .stay (.readCopy n (got ++ [s.pipe.front])))
  else (s, .wakeup (nwriteAddr a) (.readDone n got))

def pipeclose (s : St) (writable : Bool) : St × Out Phase :=
  if writable then
    ({ s with pipe := { s.pipe with writeopen := false } },
      .wakeup (nreadAddr a) (.closeDone writable))
  else
    ({ s with pipe := { s.pipe with readopen := false } },
      .wakeup (nwriteAddr a) (.closeDone writable))

def exec (s : St) (killed : Bool) : Phase → St × Out Phase
  | .write call addr i => pipewrite a s killed call addr i
  | .writeFull call addr i => (s, .sleep (nwriteAddr a) (.writeSleep call addr i))
  | .writeSleep call addr i => (s, .stay (.write call addr i))
  | .writeDone addr => (s, .leave addr.length)
  | .read n => piperead a s killed n
  | .readSleep n => (s, .stay (.read n))
  | .readCopy n got => copy a s n got
  | .readDone _ got => ({ s with reads := s.reads ++ [got] }, .leave got.length)
  | .close writable => pipeclose a s writable
  | .closeDone _ => (s, .leave 0)

def run (s : St) (killed : Bool) (x : Phase) : Input → Option (St × Out Phase)
  | .go => some (exec a s killed x)
  | _ => none

def Phase.rests : Phase → Bool
  | .writeSleep _ _ _ => true
  | .readSleep _ => true
  | _ => false

/-- The channel for which the process has called `wakeup` last. -/
def Phase.woke : Phase → Option Nat
  | .writeFull _ _ _ => some (nreadAddr a)
  | .writeDone _ => some (nreadAddr a)
  | .readDone _ _ => some (nwriteAddr a)
  | .closeDone writable => some (if writable then nreadAddr a else nwriteAddr a)
  | _ => none

theorem exec_rests (h : (exec a s killed x).2 = .sleep n x') : x'.rests = true := by
  cases x <;> simp only [exec] at h <;> grind [pipewrite, piperead, copy, pipeclose, Phase.rests]

theorem exec_woke (h : (exec a s killed x).2.next = some x') (hw : x'.woke a = some n) :
    (exec a s killed x).2 = .wakeup n x' := by
  cases x <;> simp only [exec] at h ⊢ <;>
    grind [pipewrite, piperead, copy, pipeclose, Phase.woke, Out.next]

def code : Code St Phase Input where
  lock := a
  chans := [nreadAddr a, nwriteAddr a]
  enter := enter
  run := run a
  rests := Phase.rests
  woke := Phase.woke a
  enter_woke {s i s' x} h := by
    cases i <;> cases h <;> rfl
  run_rests {s b x i s' n x'} h := by
    cases i <;> simp only [run, reduceCtorEq] at h
    exact exec_rests a (congrArg Prod.snd (Option.some.inj h))
  run_woke {s b x i s' o x' n} h ho hw := by
    cases i <;> simp only [run, reduceCtorEq] at h
    have he : (exec a s b x).2 = o := congrArg Prod.snd (Option.some.inj h)
    subst he
    exact exec_woke a ho hw

end Code

def boot (ticks : UInt32) : Mst St Phase :=
  Code.boot ticks { pipe := pipealloc, writes := [], stored := [], taken := [], reads := [] }

end Xv6.Pipes
