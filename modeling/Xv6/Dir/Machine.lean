import Xv6.Dir.Map
import Xv6.Lib.Exec
import Xv6.Lib.History
import Xv6.Lib.Tracks

namespace Xv6.Dir
open Lib Fs
set_option autoImplicit true

/-- What processes ask of a directory; `create` has the inode number from `ialloc`, `unlink` whether
the inode may go. -/
inductive Op where
  | dirlookup (name : List UInt8)
  | create (name : List UInt8) (inum : Nat)
  | link (name : List UInt8) (inum : Nat)
  | unlink (name : List UInt8) (ok : Bool)
  deriving DecidableEq

def Op.name : Op → List UInt8
  | .dirlookup name | .create name _ | .link name _ | .unlink name _ => name

def Op.isCreate : Op → Bool
  | .create _ _ => true
  | _ => false

inductive Res where
  | absent
  | present (inum : Nat)
  | inserted (inum : Nat)
  | removed (inum : Nat)
  | refused
  deriving DecidableEq

/-- What a process does next, from `locked` on under the lock. -/
inductive Pc where
  | idle
  | start (op : Op)
  | locked (op : Op)
  | dirlink (op : Op) (inum : Nat)
  | write (op : Op) (inum off : Nat)
  | check (op : Op) (ok : Bool) (off inum : Nat)
  | clear (op : Op) (off inum : Nat)
  | unlock (op : Op) (res : Res)
  deriving DecidableEq

/-- A directory with its lock. `hist` and `returned` are a history: the operations in the order of
their effect, and what was returned. -/
structure St where
  dents : List Dirent
  holder : Option Pid
  pc : Pid → Pc
  hist : List (Pid × Op × Res)
  returned : Pid → List (Op × Res)

def boot (dents : List Dirent) : St where
  dents := dents
  holder := none
  pc _ := .idle
  hist := []
  returned _ := []

namespace St

def goto (s : St) (p : Pid) (x : Pc) : St := { s with pc := Function.update s.pc p x }

/-- The operation of process `p` takes effect, leaving entries `dents`. -/
def finish (s : St) (p : Pid) (op : Op) (res : Res) (dents : List Dirent) : St :=
  { s.goto p (.unlock op res) with dents := dents, hist := s.hist ++ [(p, op, res)] }

end St

def procStep (s : St) (p : Pid) : Except Fault St :=
  match s.pc p with
  | .idle => .error .blocked
  | .start op =>
    if s.holder = none then .ok { s.goto p (.locked op) with holder := some p }
    else .error .blocked
  | .locked (.dirlookup name) =>
    match find s.dents name with
    | some (_, i) => .ok (s.finish p (.dirlookup name) (.present i) s.dents)
    | none => .ok (s.finish p (.dirlookup name) .absent s.dents)
  | .locked (.create name inum) =>
    match find s.dents name with
    | some (_, i) => .ok (s.finish p (.create name inum) (.present i) s.dents)
    | none => .ok (s.goto p (.dirlink (.create name inum) inum))
  | .locked (.link name inum) => .ok (s.goto p (.dirlink (.link name inum) inum))
  | .locked (.unlink name ok) =>
    if namecmp name [46] = 0 ∨ namecmp name [46, 46] = 0 then
      .ok (s.finish p (.unlink name ok) .refused s.dents)
    else
      match find s.dents name with
      | some (off, i) => .ok (s.goto p (.check (.unlink name ok) ok off i))
      | none => .ok (s.finish p (.unlink name ok) .absent s.dents)
  | .dirlink op inum =>
    match find s.dents op.name with
    | some (_, i) =>
      if op.isCreate then .error (.panic "create: dirlink")
      else .ok (s.finish p op (.present i) s.dents)
    | none => .ok (s.goto p (.write op inum (emptySlot s.dents)))
  | .write op inum off =>
    if maxFile * bSize < (off + 1) * 16 then .error (.panic "dirlink")
    else .ok (s.finish p op (.inserted inum)
      (putDirent s.dents off ⟨inum % 2 ^ 16, strncpy dirSiz op.name⟩))
  | .check op ok off i =>
    if ok then .ok (s.goto p (.clear op off i)) else .ok (s.finish p op .refused s.dents)
  | .clear op off i => .ok (s.finish p op (.removed i) (putDirent s.dents off .zero))
  | .unlock op res =>
    .ok { s.goto p .idle with
      holder := none
      returned := Function.update s.returned p (s.returned p ++ [(op, res)]) }

inductive Event where
  | call (p : Pid) (op : Op)
  | step (p : Pid)

def step (s : St) : Event → Except Fault St
  | .call p op => if s.pc p = .idle then .ok (s.goto p (.start op)) else .error .blocked
  | .step p => procStep s p

/-- Inode numbers are not zero and fit an entry. -/
def legal (_ : St) : Event → Bool
  | .call _ (.create _ inum) | .call _ (.link _ inum) => inum ≠ 0 ∧ inum < 2 ^ 16
  | _ => true

end Xv6.Dir
