import Xv6.Kernel.Syscalls

namespace Xv6.Kernel
open Lib Fs Function
open Sys (tDir tFile nOFile oCreate)
set_option autoImplicit true

abbrev nFile : Nat := 100
abbrev nProc : Nat := 64
abbrev oWronly : Nat := 1
abbrev oRdwr : Nat := 2

abbrev Proc := Fin nProc

abbrev FileId := Fin nFile

inductive FileType where
  | none
  | pipe
  | inode
  deriving DecidableEq

/-- `struct file`; a pipe is the number of its page. -/
@[ext] structure File where
  type : FileType
  ref : Int
  readable : Bool
  writable : Bool
  pipe : Nat
  ip : Slot
  deriving DecidableEq

/-- The file table, the files and directory of each process, and the pipes. `allocated` and `freed`
are a history: how often a page was made a pipe, and given back. -/
@[ext] structure Files where
  file : FileId → File
  ofile : Proc × Fin nOFile → Option FileId
  cwd : Proc → Option Slot
  readopen : Nat → Bool
  writeopen : Nat → Bool
  allocated : Nat → Nat
  freed : Nat → Nat

structure St where
  fs : FsState
  t : Files

abbrev KernelM := Prog St Fault

namespace Files

def setFile (t : Files) (f : FileId) (x : File) : Files :=
  { t with file := update t.file f x }

def setFd (t : Files) (x : Proc × Fin nOFile) (o : Option FileId) : Files :=
  { t with ofile := update t.ofile x o }

def setCwd (t : Files) (p : Proc) (o : Option Slot) : Files :=
  { t with cwd := update t.cwd p o }

def freeFile (t : Files) : Option FileId :=
  (List.finRange nFile).find? fun f => (t.file f).ref = 0

def freeFd (t : Files) (p : Proc) : Option (Fin nOFile) :=
  (List.finRange nOFile).find? fun fd => t.ofile (p, fd) = none

def argfd (t : Files) (p : Proc) (fd : Int) : Option (Fin nOFile × FileId) :=
  if h : 0 ≤ fd ∧ fd.toNat < nOFile then
    (t.ofile (p, ⟨fd.toNat, h.2⟩)).map fun f => (⟨fd.toNat, h.2⟩, f)
  else none

/-- `p->writeopen = 0` or `p->readopen = 0`. -/
def closeEnd (t : Files) (p : Nat) (writable : Bool) : Files :=
  if writable then { t with writeopen := update t.writeopen p false }
  else { t with readopen := update t.readopen p false }

def kfree (t : Files) (p : Nat) : Files :=
  { t with freed := update t.freed p (t.freed p + 1) }

def pipeclose (t : Files) (p : Nat) (writable : Bool) : Files :=
  let t := t.closeEnd p writable
  if t.readopen p = false ∧ t.writeopen p = false then t.kfree p else t

end Files

/-- File-system code, which leaves the files alone. -/
def fs (m : FsM α) : KernelM α := fun s =>
  match m.run s.fs with
  | .ok (a, fs) => .ok (a, { s with fs := fs })
  | .error e => .error e

def edit (f : Files → Files) : KernelM PUnit :=
  modify fun s => { s with t := f s.t }

def filealloc : KernelM (Option FileId) := do
  let s ← get
  match s.t.freeFile with
  | some f =>
    edit fun t => t.setFile f { t.file f with ref := 1 }
    pure (some f)
  | none => pure none

def filedup (f : FileId) : KernelM PUnit := do
  let s ← get
  if (s.t.file f).ref < 1 then throw (.panic "filedup")
  else edit fun t => t.setFile f { t.file f with ref := (t.file f).ref + 1 }

def closeLast (ff : File) : KernelM PUnit :=
  match ff.type with
  | .pipe => edit fun t => t.pipeclose ff.pipe ff.writable
  | .inode => do
    fs beginOp
    fs (iput ff.ip)
    fs endOp
  | .none => pure ()

def fileclose (f : FileId) : KernelM PUnit := do
  let s ← get
  if (s.t.file f).ref < 1 then throw (.panic "fileclose")
  else if 0 < (s.t.file f).ref - 1 then
    edit fun t => t.setFile f { t.file f with ref := (t.file f).ref - 1 }
  else
    edit fun t => t.setFile f { t.file f with ref := 0, type := .none }
    closeLast (s.t.file f)

def fdalloc (p : Proc) (f : FileId) : KernelM (Option (Fin nOFile)) := do
  let s ← get
  match s.t.freeFd p with
  | some fd =>
    edit fun t => t.setFd (p, fd) (some f)
    pure (some fd)
  | none => pure none

def sysDup (p : Proc) (fd : Int) : KernelM Int := do
  let s ← get
  match s.t.argfd p fd with
  | none => pure (-1)
  | some (_, f) =>
    let r ← fdalloc p f
    match r with
    | none => pure (-1)
    | some fd =>
      filedup f
      pure fd.val

def sysClose (p : Proc) (fd : Int) : KernelM Int := do
  let s ← get
  match s.t.argfd p fd with
  | none => pure (-1)
  | some (fd, f) =>
    edit fun t => t.setFd (p, fd) none
    fileclose f
    pure 0

/-- The fields that `sys_open` sets. -/
def File.opened (x : File) (ip : Slot) (omode : Nat) : File :=
  { x with
    type := .inode
    ip := ip
    readable := omode &&& oWronly = 0
    writable := omode &&& oWronly ≠ 0 ∨ omode &&& oRdwr ≠ 0 }

def giveUp (ip : Slot) : KernelM Int := do
  fs (iunlockput ip)
  fs endOp
  pure (-1)

def openFile (p : Proc) (ip : Slot) (omode : Nat) : KernelM Int := do
  let r ← filealloc
  match r with
  | none => giveUp ip
  | some f =>
    let r ← fdalloc p f
    match r with
    | none =>
      fileclose f
      giveUp ip
    | some fd =>
      fs (iunlock ip)
      fs endOp
      edit fun t => t.setFile f ((t.file f).opened ip omode)
      pure fd.val

def sysOpen (p : Proc) (cwd : Slot) (path : Option (List UInt8)) (omode : Nat) : KernelM Int :=
  match path with
  | none => pure (-1)
  | some path => do
    fs beginOp
    if omode &&& oCreate ≠ 0 then
      let r ← fs (create cwd path tFile 0 0)
      match r with
      | none =>
        fs endOp
        pure (-1)
      | some ip => openFile p ip omode
    else
      let r ← fs (namex cwd path false)
      match r with
      | none =>
        fs endOp
        pure (-1)
      | some (ip, _) =>
        fs (ilock ip)
        let s ← get
        if (s.fs.ip ip).type = tDir ∧ omode ≠ 0 then giveUp ip else openFile p ip omode

def sysChdir (p : Proc) (cwd : Slot) (path : Option (List UInt8)) : KernelM Int := do
  fs beginOp
  match path with
  | none =>
    fs endOp
    pure (-1)
  | some path =>
    let r ← fs (namex cwd path false)
    match r with
    | none =>
      fs endOp
      pure (-1)
    | some (ip, _) =>
      fs (ilock ip)
      let s ← get
      if (s.fs.ip ip).type = tDir then
        fs (iunlock ip)
        fs (iput cwd)
        fs endOp
        edit fun t => t.setCwd p (some ip)
        pure 0
      else giveUp ip

def Files.makePipe (t : Files) (q : Nat) (f0 f1 : FileId) : Files :=
  let t := { t with
    readopen := update t.readopen q true
    writeopen := update t.writeopen q true
    allocated := update t.allocated q (t.allocated q + 1) }
  let t := t.setFile f0
    { t.file f0 with type := .pipe, readable := true, writable := false, pipe := q }
  t.setFile f1 { t.file f1 with type := .pipe, readable := false, writable := true, pipe := q }

/-- `pipealloc`, where `kalloc` returns `page`. -/
def pipealloc (page : Option Nat) : KernelM (Option (FileId × FileId)) := do
  let r ← filealloc
  match r with
  | none => pure none
  | some f0 =>
    let r ← filealloc
    match r with
    | none =>
      fileclose f0
      pure none
    | some f1 =>
      match page with
      | none =>
        fileclose f0
        fileclose f1
        pure none
      | some q =>
        edit fun t => t.makePipe q f0 f1
        pure (some (f0, f1))

/-- `sys_pipe` without a descriptor. -/
def pipeBad (rf wf : FileId) : KernelM Int := do
  fileclose rf
  fileclose wf
  pure (-1)

/-- `sys_pipe`; `fds` says whether `argptr` accepts the address. -/
def sysPipe (p : Proc) (fds : Bool) (page : Option Nat) : KernelM Int :=
  if fds then do
    let r ← pipealloc page
    match r with
    | none => pure (-1)
    | some (rf, wf) =>
      let r ← fdalloc p rf
      match r with
      | none => pipeBad rf wf
      | some fd0 =>
        let r ← fdalloc p wf
        match r with
        | none =>
          edit fun t => t.setFd (p, fd0) none
          pipeBad rf wf
        | some _ => pure 0
  else pure (-1)

/-- The loop of `fork` over the descriptors left. -/
def dupAll (p child : Proc) : List (Fin nOFile) → KernelM PUnit
  | [] => pure ()
  | fd :: fds => do
    let s ← get
    match s.t.ofile (p, fd) with
    | some f =>
      filedup f
      edit fun t => t.setFd (child, fd) (some f)
      dupAll p child fds
    | none => dupAll p child fds

/-- `fork`, with `allocproc`'s child and whether `copyuvm` succeeds. -/
def fork (p : Proc) (cwd : Slot) (child : Option Proc) (copied : Bool) : KernelM Int :=
  match child with
  | none => pure (-1)
  | some child =>
    if copied then do
      dupAll p child (List.finRange nOFile)
      fs (idup cwd)
      edit fun t => t.setCwd child (some cwd)
      pure child.val
    else pure (-1)

/-- The loop of `exit` over the descriptors left. -/
def closeAll (p : Proc) : List (Fin nOFile) → KernelM PUnit
  | [] => pure ()
  | fd :: fds => do
    let s ← get
    match s.t.ofile (p, fd) with
    | some f =>
      fileclose f
      edit fun t => t.setFd (p, fd) none
      closeAll p fds
    | none => closeAll p fds

def exit (p : Proc) (cwd : Slot) : KernelM Int := do
  closeAll p (List.finRange nOFile)
  fs beginOp
  fs (iput cwd)
  fs endOp
  edit fun t => t.setCwd p none
  pure 0

inductive Call where
  | open_ (path : Option (List UInt8)) (omode : Nat)
  | mkdir (path : Option (List UInt8))
  | mknod (path : Option (List UInt8)) (major minor : Nat)
  | link (args : Option (List UInt8 × List UInt8))
  | unlink (path : Option (List UInt8))
  | chdir (path : Option (List UInt8))
  | close (fd : Int)
  | exec (path : List UInt8) (vm : Vm)
  | dup (fd : Int)
  | pipe (fds : Bool) (page : Option Nat)
  | fork (child : Option Proc) (copied : Bool)
  | exit

def call (p : Proc) (cwd : Slot) : Call → KernelM Int
  | .open_ path omode => sysOpen p cwd path omode
  | .mkdir path => fs (sysMkdir cwd path)
  | .mknod path major minor => fs (sysMknod cwd path major minor)
  | .link args => fs (sysLink cwd args)
  | .unlink path => fs (sysUnlink cwd path)
  | .chdir path => sysChdir p cwd path
  | .close fd => sysClose p fd
  | .exec path vm => fs (Kernel.exec cwd path vm)
  | .dup fd => sysDup p fd
  | .pipe fds page => sysPipe p fds page
  | .fork child copied => Kernel.fork p cwd child copied
  | .exit => Kernel.exit p cwd

/-- One system call, run to completion, of a process that has not exited. -/
def step (s : St) (e : Proc × Call) : Except Fault St :=
  match s.t.cwd e.1 with
  | some cwd => do
    let (_, s) ← (call e.1 cwd e.2).run s
    .ok s
  | none => .error .blocked

/-- The first process, in the root directory, entry `root` of the cache. -/
def boot (fs : FsState) (p : Proc) (root : Slot) : St where
  fs := { fs with ref := Pi.single root 1 }
  t := {
    file := fun _ => ⟨.none, 0, false, false, 0, root⟩
    ofile := fun _ => none
    cwd := update (fun _ => none) p (some root)
    readopen := fun _ => false
    writeopen := fun _ => false
    allocated := fun _ => 0
    freed := fun _ => 0 }

end Xv6.Kernel
