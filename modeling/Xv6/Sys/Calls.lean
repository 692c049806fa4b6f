import Xv6.Fs.Dir
import Xv6.Lib.Exec

namespace Xv6.Sys
open Lib Fs Function
set_option autoImplicit true

abbrev rootIno : Nat := 1
abbrev tDir : Nat := 1
abbrev tFile : Nat := 2
abbrev nOFile : Nat := 16
abbrev oCreate : Nat := 0x200
abbrev slash : UInt8 := 47

/-- An inode as sysfile.c sees it: a directory holds its entries. -/
structure Inode where
  type : Nat
  major : Int16
  minor : Int16
  nlink : Int16
  dents : List Dirent
  deriving DecidableEq

/-- What a process keeps a reference to an inode in. -/
inductive Slot where
  | cwd (p : Pid)
  | fd (p : Pid) (n : Nat)
  deriving DecidableEq

/-- The inodes, the counts and `valid` flags of the cache, and the references of processes. -/
structure St where
  ninodes : Nat
  inode : Nat → Inode
  ref : Nat → Nat
  valid : Nat → Bool
  held : Slot → Option Nat

def St.setInode (s : St) (i : Nat) (ip : Inode) : St :=
  { s with inode := update s.inode i ip }

def St.setNlink (s : St) (i : Nat) (v : Int16) : St :=
  s.setInode i { s.inode i with nlink := v }

/-- `writei` of one entry of directory `dp`. -/
def St.setDirent (s : St) (dp off : Nat) (de : Dirent) : St :=
  s.setInode dp { s.inode dp with dents := putDirent (s.inode dp).dents off de }

def St.setHeld (s : St) (x : Slot) (o : Option Nat) : St :=
  { s with held := update s.held x o }

theorem setNlink_self (s : St) (i : Nat) (v : Int16) :
    ((s.setNlink i v).inode i).nlink = v := by
  simp only [St.setNlink, St.setInode, update_self]

theorem setNlink_of_ne (s : St) (v : Int16) (h : j ≠ i) :
    (s.setNlink i v).inode j = s.inode j :=
  update_of_ne h _ _

theorem setNlink_type (s : St) (i : Nat) (v : Int16) (j : Nat) :
    ((s.setNlink i v).inode j).type = (s.inode j).type := by
  by_cases hj : j = i
  · simp only [hj, St.setNlink, St.setInode, update_self]
  · rw [setNlink_of_ne s v hj]

theorem setNlink_dents (s : St) (i : Nat) (v : Int16) (j : Nat) :
    ((s.setNlink i v).inode j).dents = (s.inode j).dents := by
  by_cases hj : j = i
  · simp only [hj, St.setNlink, St.setInode, update_self]
  · rw [setNlink_of_ne s v hj]

theorem setDirent_type (s : St) (dp off : Nat) (de : Dirent) (j : Nat) :
    ((s.setDirent dp off de).inode j).type = (s.inode j).type := by
  by_cases hj : j = dp
  · simp only [hj, St.setDirent, St.setInode, update_self]
  · simp only [St.setDirent, St.setInode, update_of_ne hj]

theorem setDirent_nlink (s : St) (dp off : Nat) (de : Dirent) (j : Nat) :
    ((s.setDirent dp off de).inode j).nlink = (s.inode j).nlink := by
  by_cases hj : j = dp
  · simp only [hj, St.setDirent, St.setInode, update_self]
  · simp only [St.setDirent, St.setInode, update_of_ne hj]

/-- `iget`; an entry not in use starts without a valid copy. -/
def iget (s : St) (i : Nat) : St :=
  { s with
    ref := update s.ref i (s.ref i + 1)
    valid := if s.ref i = 0 then update s.valid i false else s.valid }

def idup (s : St) (i : Nat) : St := { s with ref := update s.ref i (s.ref i + 1) }

def ilock (s : St) (i : Nat) : Except Fault St :=
  if s.valid i then .ok s
  else if (s.inode i).type = 0 then .error (.panic "ilock: no type")
  else .ok { s with valid := update s.valid i true }

/-- Without links and other references, the inode is truncated and freed. -/
def St.free (s : St) (i : Nat) : St :=
  { s with
    inode := update s.inode i { s.inode i with type := 0, dents := [] }
    valid := update s.valid i false }

def iput (s : St) (i : Nat) : St :=
  let s := if s.valid i ∧ (s.inode i).nlink = 0 ∧ s.ref i = 1 then s.free i else s
  { s with ref := update s.ref i (s.ref i - 1) }

def ialloc (s : St) (type : Nat) : Except Fault (St × Nat) :=
  match ((List.range s.ninodes).drop 1).find? fun i => (s.inode i).type = 0 with
  | some i => .ok (iget (s.setInode i ⟨type, 0, 0, 0, []⟩) i, i)
  | none => .error (.panic "ialloc: no inodes")

def dirlookup (s : St) (dp : Nat) (name : List UInt8) : Except Fault (St × Option (Nat × Nat)) :=
  if (s.inode dp).type ≠ tDir then .error (.panic "dirlookup not DIR")
  else
    match find (s.inode dp).dents name with
    | some (off, inum) => .ok (iget s inum, some (off, inum))
    | none => .ok (s, none)

/-- `dirlink`; `inum` is cut to 16 bits, and a directory is no larger than a file. -/
def dirlink (s : St) (dp : Nat) (name : List UInt8) (inum : Nat) : Except Fault (St × Int) := do
  let (s, r) ← dirlookup s dp name
  match r with
  | some (_, i) => .ok (iput s i, -1)
  | none =>
    let off := emptySlot (s.inode dp).dents
    if maxFile * bSize < (off + 1) * 16 then .error (.panic "dirlink")
    else .ok (s.setDirent dp off ⟨inum % 2 ^ 16, strncpy dirSiz name⟩, 0)

/-- `skipelem`: the next element, cut to the size of a name, and the rest. -/
def skipelem (path : List UInt8) : Option (List UInt8 × List UInt8) :=
  let path := path.dropWhile (· = slash)
  if path.headD 0 = 0 then none
  else
    let s := path.takeWhile fun c => c ≠ slash ∧ c ≠ 0
    some (s.take dirSiz, (path.drop s.length).dropWhile (· = slash))

/-- The elements that the loop of `namex` takes from a path, one at a time. -/
def elemsFrom : Nat → List UInt8 → List (List UInt8)
  | 0, _ => []
  | n + 1, path =>
    match skipelem path with
    | some (name, path) => name :: elemsFrom n path
    | none => []

def elems (path : List UInt8) : List (List UInt8) := elemsFrom path.length path

def namexLoop (s : St) (ip : Nat) (nameiparent : Bool) :
    List (List UInt8) → Except Fault (St × Option (Nat × List UInt8))
  | [] => if nameiparent then .ok (iput s ip, none) else .ok (s, some (ip, []))
  | name :: rest => do
    let s ← ilock s ip
    if (s.inode ip).type ≠ tDir then .ok (iput s ip, none)
    else if nameiparent ∧ rest = [] then .ok (s, some (ip, name))
    else
      let (s, r) ← dirlookup s ip name
      match r with
      | none => .ok (iput s ip, none)
      | some (_, next) => namexLoop (iput s ip) next nameiparent rest

def namex (s : St) (cwd : Nat) (path : List UInt8) (nameiparent : Bool) :
    Except Fault (St × Option (Nat × List UInt8)) :=
  if path.headD 0 = slash then namexLoop (iget s rootIno) rootIno nameiparent (elems path)
  else namexLoop (idup s cwd) cwd nameiparent (elems path)

/-- The "." and ".." entries of a new directory, with a link for "..". -/
def makeDots (s : St) (dp ip : Nat) : Except Fault St := do
  let s := s.setNlink dp ((s.inode dp).nlink + 1)
  let (s, r) ← dirlink s ip [46] ip
  if r < 0 then .error (.panic "create dots")
  else
    let (s, r) ← dirlink s ip [46, 46] dp
    if r < 0 then .error (.panic "create dots") else .ok s

/-- The rest of `create` when the name is not in directory `dp`. -/
def createIn (s : St) (dp : Nat) (name : List UInt8) (type : Nat) (major minor : Int16) :
    Except Fault (St × Option Nat) := do
  let (s, ip) ← ialloc s type
  let s ← ilock s ip
  let s := s.setInode ip { s.inode ip with major := major, minor := minor, nlink := 1 }
  let s ← (if type = tDir then makeDots s dp ip else .ok s : Except Fault St)
  let (s, r) ← dirlink s dp name ip
  if r < 0 then .error (.panic "create: dirlink") else .ok (iput s dp, some ip)

def create (s : St) (cwd : Nat) (path : List UInt8) (type : Nat) (major minor : Int16) :
    Except Fault (St × Option Nat) := do
  let (s, r) ← namex s cwd path true
  match r with
  | none => .ok (s, none)
  | some (dp, name) =>
    let s ← ilock s dp
    let (s, r) ← dirlookup s dp name
    match r with
    | some (_, ip) =>
      let s := iput s dp
      let s ← ilock s ip
      if type = tFile ∧ (s.inode ip).type = tFile then .ok (s, some ip)
      else .ok (iput s ip, none)
    | none => createIn s dp name type major minor

def linkBad (s : St) (ip : Nat) : Except Fault (St × Int) := do
  let s ← ilock s ip
  let s := s.setNlink ip ((s.inode ip).nlink - 1)
  .ok (iput s ip, -1)

def linkInto (s : St) (cwd ip : Nat) (new : List UInt8) : Except Fault (St × Int) := do
  let (s, r) ← namex s cwd new true
  match r with
  | none => linkBad s ip
  | some (dp, name) =>
    let s ← ilock s dp
    let (s, r) ← dirlink s dp name ip
    let s := iput s dp
    if r < 0 then linkBad s ip else .ok (iput s ip, 0)

def sysLink (s : St) (cwd : Nat) (old new : List UInt8) : Except Fault (St × Int) := do
  let (s, r) ← namex s cwd old false
  match r with
  | none => .ok (s, -1)
  | some (ip, _) =>
    let s ← ilock s ip
    if (s.inode ip).type = tDir then .ok (iput s ip, -1)
    else linkInto (s.setNlink ip ((s.inode ip).nlink + 1)) cwd ip new

def isdirempty (dents : List Dirent) : Bool := (dents.drop 2).all (·.inum = 0)

/-- `sys_unlink` with both inodes locked and the entry found at `off`. -/
def unlinkAt (s : St) (dp off ip : Nat) : Except Fault (St × Int) :=
  if (s.inode ip).nlink < 1 then .error (.panic "unlink: nlink < 1")
  else if (s.inode ip).type = tDir ∧ isdirempty (s.inode ip).dents = false then
    .ok (iput (iput s ip) dp, -1)
  else
    let s := s.setDirent dp off .zero
    let s := if (s.inode ip).type = tDir then s.setNlink dp ((s.inode dp).nlink - 1) else s
    let s := iput s dp
    let s := s.setNlink ip ((s.inode ip).nlink - 1)
    .ok (iput s ip, 0)

def sysUnlink (s : St) (cwd : Nat) (path : List UInt8) : Except Fault (St × Int) := do
  let (s, r) ← namex s cwd path true
  match r with
  | none => .ok (s, -1)
  | some (dp, name) =>
    let s ← ilock s dp
    if namecmp name [46] = 0 ∨ namecmp name [46, 46] = 0 then .ok (iput s dp, -1)
    else
      let (s, r) ← dirlookup s dp name
      match r with
      | none => .ok (iput s dp, -1)
      | some (off, ip) =>
        let s ← ilock s ip
        unlinkAt s dp off ip

def fdalloc (s : St) (p : Pid) : Option Nat :=
  (List.range nOFile).find? fun n => s.held (.fd p n) = none

/-- The end of `sys_open`, with `ip` locked and perhaps no free file. -/
def openFile (s : St) (p : Pid) (ip : Nat) (filealloc : Bool) : St × Int :=
  match filealloc, fdalloc s p with
  | true, some fd => (s.setHeld (.fd p fd) (some ip), fd)
  | _, _ => (iput s ip, -1)

def sysOpen (s : St) (p : Pid) (cwd : Nat) (path : List UInt8) (omode : Nat)
    (filealloc : Bool) : Except Fault (St × Int) :=
  if omode &&& oCreate ≠ 0 then do
    let (s, r) ← create s cwd path tFile 0 0
    match r with
    | none => .ok (s, -1)
    | some ip => .ok (openFile s p ip filealloc)
  else do
    let (s, r) ← namex s cwd path false
    match r with
    | none => .ok (s, -1)
    | some (ip, _) =>
      let s ← ilock s ip
      if (s.inode ip).type = tDir ∧ omode ≠ 0 then .ok (iput s ip, -1)
      else .ok (openFile s p ip filealloc)

def sysMake (s : St) (cwd : Nat) (path : List UInt8) (type : Nat) (major minor : Int16) :
    Except Fault (St × Int) := do
  let (s, r) ← create s cwd path type major minor
  match r with
  | none => .ok (s, -1)
  | some ip => .ok (iput s ip, 0)

def sysMkdir (s : St) (cwd : Nat) (path : List UInt8) : Except Fault (St × Int) :=
  sysMake s cwd path tDir 0 0

def sysMknod (s : St) (cwd : Nat) (path : List UInt8) (major minor : Int16) :
    Except Fault (St × Int) :=
  sysMake s cwd path tDev major minor

def sysChdir (s : St) (p : Pid) (cwd : Nat) (path : List UInt8) : Except Fault (St × Int) := do
  let (s, r) ← namex s cwd path false
  match r with
  | none => .ok (s, -1)
  | some (ip, _) =>
    let s ← ilock s ip
    if (s.inode ip).type ≠ tDir then .ok (iput s ip, -1)
    else .ok ((iput s cwd).setHeld (.cwd p) (some ip), 0)

def drop (s : St) (x : Slot) : St :=
  match s.held x with
  | some i => iput (s.setHeld x none) i
  | none => s

def sysClose (s : St) (p : Pid) (fd : Nat) : St × Int :=
  match s.held (.fd p fd) with
  | some _ => (drop s (.fd p fd), 0)
  | none => (s, -1)

/-- `exit` closes all open files and leaves the current directory. -/
def exit (s : St) (p : Pid) : St :=
  drop ((List.range nOFile).foldl (fun s n => drop s (.fd p n)) s) (.cwd p)

inductive Call where
  | open_ (path : List UInt8) (omode : Nat) (filealloc : Bool)
  | mkdir (path : List UInt8)
  | mknod (path : List UInt8) (major minor : Int16)
  | link (old new : List UInt8)
  | unlink (path : List UInt8)
  | chdir (path : List UInt8)
  | close (fd : Nat)
  | exit

/-- A system call of process `p`, which is in directory `cwd`. -/
def call (s : St) (p : Pid) (cwd : Nat) : Call → Except Fault (St × Int)
  | .open_ path omode filealloc => sysOpen s p cwd path omode filealloc
  | .mkdir path => sysMkdir s cwd path
  | .mknod path major minor => sysMknod s cwd path major minor
  | .link old new => sysLink s cwd old new
  | .unlink path => sysUnlink s cwd path
  | .chdir path => sysChdir s p cwd path
  | .close fd => .ok (sysClose s p fd)
  | .exit => .ok (exit s p, 0)

def step (s : St) (e : Pid × Call) : Except Fault St :=
  match s.held (.cwd e.1) with
  | some cwd => do
    let (s, _) ← call s e.1 cwd e.2
    .ok s
  | none => .error .blocked

end Xv6.Sys
