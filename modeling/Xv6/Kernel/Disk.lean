import Xv6.Icache.Machine
import Xv6.Lib.Triple
import Xv6.Log.Header

namespace Xv6.Kernel
open Lib Fs
set_option autoImplicit true

abbrev Slot := Icache.Slot

inductive LogCall where
  | beginOp
  | endOp
  deriving DecidableEq

/-- The memory of bio.c, log.c and fs.c while one process runs: blocks as cached, buffers locked,
the log, and the inode cache. `trace` is the history of `begin_op` and `end_op`. -/
structure FsState where
  sb : Superblock
  area : LogArea
  blocks : Nat → Block
  bufs : List Nat
  lh : List Nat
  outstanding : Int
  committing : Bool
  inum : Slot → Nat
  ref : Slot → Int
  locked : Slot → Bool
  valid : Slot → Bool
  ip : Slot → Inode
  console : List (List UInt8 × Int)
  trace : List LogCall

abbrev FsM := Prog FsState Fault

/-- What a process can forget to give back. -/
inductive Key where
  | buf (b : Nat)
  | lock (i : Slot)
  | ref (i : Slot)
  deriving DecidableEq

def FsState.res (s : FsState) : Key → Int
  | .buf b => s.bufs.count b
  | .lock i => if s.locked i then 1 else 0
  | .ref i => s.ref i

/-- `bread`; a buffer locked, or pinned by the log, is not recycled. -/
def bread (b : Nat) : FsM PUnit := do
  let s ← get
  if b ∈ s.bufs then throw .blocked
  else if b ∉ s.lh ∧ nBuf ≤ (s.bufs ++ s.lh).eraseDups.length then
    throw (.panic "bget: no buffers")
  else set { s with bufs := b :: s.bufs }

def brelse (b : Nat) : FsM PUnit := do
  let s ← get
  if b ∈ s.bufs then set { s with bufs := s.bufs.erase b }
  else throw (.panic "brelse")

def bwrite (b : Nat) : FsM PUnit := do
  let s ← get
  if b ∈ s.bufs then pure () else throw (.panic "bwrite")

def data (b : Nat) : FsM Block := do
  let s ← get
  pure (s.blocks b)

def setData (b : Nat) (blk : Block) : FsM PUnit :=
  modify fun s => { s with blocks := Function.update s.blocks b blk }

def logWrite (b : Nat) : FsM PUnit := do
  let s ← get
  if logSize ≤ s.lh.length ∨ (s.area.size : Int) - 1 ≤ s.lh.length then
    throw (.panic "too big a transaction")
  else if s.outstanding < 1 then throw (.panic "log_write outside of trans")
  else if b ∈ s.lh then pure ()
  else set { s with lh := s.lh ++ [b] }

def writeLog (tail : Nat) : List Nat → FsM PUnit
  | [] => pure ()
  | b :: bs => do
    let s ← get
    bread (s.area.block tail)
    bread b
    let from_ ← data b
    setData (s.area.block tail) from_
    bwrite (s.area.block tail)
    brelse b
    brelse (s.area.block tail)
    writeLog (tail + 1) bs

def installTrans (tail : Nat) : List Nat → FsM PUnit
  | [] => pure ()
  | b :: bs => do
    let s ← get
    bread (s.area.block tail)
    bread b
    let lbuf ← data (s.area.block tail)
    setData b lbuf
    bwrite b
    brelse (s.area.block tail)
    brelse b
    installTrans (tail + 1) bs

def writeHead : FsM PUnit := do
  let s ← get
  bread s.area.start
  let buf ← data s.area.start
  setData s.area.start (Xv6.writeHead s.lh buf)
  bwrite s.area.start
  brelse s.area.start

def clearLog : FsM PUnit :=
  modify fun s => { s with lh := [] }

def setCommitting (b : Bool) : FsM PUnit :=
  modify fun s => { s with committing := b }

def commit : FsM PUnit := do
  let s ← get
  if s.lh = [] then pure ()
  else
    writeLog 0 s.lh
    writeHead
    installTrans 0 s.lh
    clearLog
    writeHead

/-- `begin_op`; nothing it would wait for happens while it sleeps. -/
def beginOp : FsM PUnit := do
  let s ← get
  if s.committing ∨ logSize < s.lh.length + (s.outstanding + 1) * maxOpBlocks then throw .blocked
  else set { s with outstanding := s.outstanding + 1, trace := s.trace ++ [LogCall.beginOp] }

def endOp : FsM PUnit := do
  modify fun s => { s with outstanding := s.outstanding - 1, trace := s.trace ++ [LogCall.endOp] }
  let s ← get
  if s.committing then throw (.panic "log.committing")
  else if s.outstanding = 0 then
    setCommitting true
    commit
    setCommitting false
  else pure ()

structure Ctx where
  base : Key → Int
  outstanding : Int
  trace : List LogCall

/-- Beyond what was held at the start the process holds `d`. -/
structure At (c : Ctx) (d : Key → Int) (s : FsState) : Prop where
  res : s.res = c.base + d
  outstanding : s.outstanding = c.outstanding
  trace : s.trace = c.trace

/-- A count of references that should be positive is not. -/
def ZeroCount (e : Fault) : Prop :=
  e = .panic "ilock" ∨ e = .panic "filedup" ∨ e = .panic "fileclose"

instance (e : Fault) : Decidable (ZeroCount e) :=
  inferInstanceAs (Decidable (_ ∨ _))

/-- A reference that a call does not find was missing before. -/
def Fine (c : Ctx) (e : Fault) : Prop :=
  ZeroCount e → ∃ i, c.base (.ref i) < 0

/-- Holding `d`, the process runs `m` and then holds `post` of its result. -/
abbrev Spec (c : Ctx) (d : Key → Int) (m : FsM α) (post : α → Key → Int) : Prop :=
  Triple (At c d) m (fun a => At c (post a)) (Fine c)

def buf (b : Nat) : Key → Int := Pi.single (.buf b) 1
def lock (i : Slot) : Key → Int := Pi.single (.lock i) 1
def ref (i : Slot) : Key → Int := Pi.single (.ref i) 1

section Specs
variable {c : Ctx} {d : Key → Int} {s s' : FsState}

theorem Spec.congr {m : FsM α} {post post' : α → Key → Int} (h : Spec c d m post)
    (hp : ∀ a, post a = post' a) : Spec c d m post' := by
  apply h.conseq (fun _ hs => hs)
  intro a s hs
  rwa [← hp a]

theorem Spec.start {m : FsM α} {post : α → Key → Int} (x : Key → Int) (h : Spec c x m post)
    (hx : d = x) : Spec c d m post :=
  hx ▸ h

theorem At.same (h : At c d s) (hr : s'.res = s.res) (ho : s'.outstanding = s.outstanding)
    (ht : s'.trace = s.trace) : At c d s' :=
  ⟨hr.trans h.res, ho.trans h.outstanding, ht.trans h.trace⟩

theorem At.add (h : At c d s) (hr : s'.res = s.res + x) (ho : s'.outstanding = s.outstanding)
    (ht : s'.trace = s.trace) : At c (d + x) s' :=
  ⟨by rw [hr, h.res, add_assoc], ho.trans h.outstanding, ht.trans h.trace⟩

theorem At.sub (h : At c d s) (hr : s'.res + x = s.res) (ho : s'.outstanding = s.outstanding)
    (ht : s'.trace = s.trace) : At c (d - x) s' := by
  rw [sub_eq_add_neg]
  exact h.add (by rw [← hr, add_neg_cancel_right]) ho ht

theorem spec_modify {f : FsState → FsState} (hr : ∀ s, (f s).res = s.res)
    (ho : ∀ s, (f s).outstanding = s.outstanding) (ht : ∀ s, (f s).trace = s.trace) :
    Spec c d (modify f) fun _ => d :=
  Triple.modify fun s hs => hs.same (hr s) (ho s) (ht s)

theorem spec_get {k : FsState → FsM α} {post : α → Key → Int} (h : ∀ s, Spec c d (k s) post) :
    Spec c d (get >>= k) post :=
  Triple.get fun s hs => (h s).conseq (fun _ ht => ht ▸ hs) fun _ _ ht => ht

theorem spec_pure {post : α → Key → Int} (h : d = post a) : Spec c d (pure a) post :=
  Triple.pure fun _ hs => h ▸ hs

theorem spec_throw {P : FsState → Prop} {Q : α → FsState → Prop} {e : Fault} (h : ¬ZeroCount e) :
    Triple P (throw e : FsM α) Q (Fine c) :=
  Triple.throw fun hz => absurd hz h

theorem res_bufs_cons (s : FsState) (b : Nat) :
    FsState.res { s with bufs := b :: s.bufs } = s.res + buf b := by
  funext k
  cases k with
  | buf b' =>
    by_cases hb : b' = b
    · subst hb
      simp [FsState.res, buf]
    · simp [FsState.res, buf, hb, List.count_cons_of_ne (Ne.symm hb)]
  | lock i => simp [FsState.res, buf]
  | ref i => simp [FsState.res, buf]

theorem res_bufs_erase (h : b ∈ s.bufs) :
    FsState.res { s with bufs := s.bufs.erase b } + buf b = s.res := by
  have hperm := (List.perm_cons_erase h).symm
  rw [← res_bufs_cons]
  funext k
  cases k with
  | buf b' => simp only [FsState.res, hperm.count_eq]
  | lock i => rfl
  | ref i => rfl

theorem bread_spec (b : Nat) : Spec c d (bread b) fun _ => d + buf b := by
  apply Triple.get
  intro s hs
  split
  · exact spec_throw (by decide)
  · split
    · exact spec_throw (by decide)
    · exact Triple.set fun _ _ => hs.add (res_bufs_cons s b) rfl rfl

theorem brelse_spec (b : Nat) : Spec c d (brelse b) fun _ => d - buf b := by
  apply Triple.get
  intro s hs
  split
  · next hb => exact Triple.set fun _ _ => hs.sub (res_bufs_erase hb) rfl rfl
  · exact spec_throw (by decide)

theorem bwrite_spec (b : Nat) : Spec c d (bwrite b) fun _ => d := by
  apply spec_get
  intro s
  split
  · exact spec_pure rfl
  · exact spec_throw (by decide)

theorem data_spec (b : Nat) : Spec c d (data b) fun _ => d :=
  spec_get fun _ => spec_pure rfl

theorem setData_spec (b : Nat) (blk : Block) : Spec c d (setData b blk) fun _ => d :=
  spec_modify (fun _ => rfl) (fun _ => rfl) fun _ => rfl

theorem logWrite_spec (b : Nat) : Spec c d (logWrite b) fun _ => d := by
  apply Triple.get
  intro s hs
  split
  · exact spec_throw (by decide)
  · split
    · exact spec_throw (by decide)
    · split
      · exact Triple.pure fun t ht => ht ▸ hs
      · exact Triple.set fun _ _ => hs.same rfl rfl rfl

theorem writeLog_spec (tail : Nat) (bs : List Nat) : Spec c d (writeLog tail bs) fun _ => d := by
  induction bs generalizing tail with
  | nil => exact spec_pure rfl
  | cons b bs ih =>
    apply spec_get
    intro s
    apply (bread_spec _).bind
    intro _
    apply (bread_spec b).bind
    intro _
    apply (data_spec b).bind
    intro blk
    apply (setData_spec _ blk).bind
    intro _
    apply (bwrite_spec _).bind
    intro _
    apply (brelse_spec b).bind
    intro _
    apply (brelse_spec _).bind
    intro _
    have hd : d + buf (s.area.block tail) + buf b - buf b - buf (s.area.block tail) = d := by
      abel
    rw [hd]
    exact ih (tail + 1)

theorem installTrans_spec (tail : Nat) (bs : List Nat) :
    Spec c d (installTrans tail bs) fun _ => d := by
  induction bs generalizing tail with
  | nil => exact spec_pure rfl
  | cons b bs ih =>
    apply spec_get
    intro s
    apply (bread_spec _).bind
    intro _
    apply (bread_spec b).bind
    intro _
    apply (data_spec _).bind
    intro blk
    apply (setData_spec b blk).bind
    intro _
    apply (bwrite_spec b).bind
    intro _
    apply (brelse_spec _).bind
    intro _
    apply (brelse_spec b).bind
    intro _
    have hd : d + buf (s.area.block tail) + buf b - buf (s.area.block tail) - buf b = d := by
      abel
    rw [hd]
    exact ih (tail + 1)

theorem writeHead_spec : Spec c d writeHead fun _ => d := by
  apply spec_get
  intro s
  apply (bread_spec _).bind
  intro _
  apply (data_spec _).bind
  intro blk
  apply (setData_spec _ _).bind
  intro _
  apply (bwrite_spec _).bind
  intro _
  exact (brelse_spec _).congr fun _ => add_sub_cancel_right d _

theorem clearLog_spec : Spec c d clearLog fun _ => d :=
  spec_modify (fun _ => rfl) (fun _ => rfl) fun _ => rfl

theorem setCommitting_spec (b : Bool) : Spec c d (setCommitting b) fun _ => d :=
  spec_modify (fun _ => rfl) (fun _ => rfl) fun _ => rfl

theorem commit_spec : Spec c d commit fun _ => d := by
  apply spec_get
  intro s
  split
  · exact spec_pure rfl
  · apply (writeLog_spec 0 s.lh).bind
    intro _
    apply writeHead_spec.bind
    intro _
    apply (installTrans_spec 0 s.lh).bind
    intro _
    apply clearLog_spec.bind
    intro _
    exact writeHead_spec

def Ctx.begun (c : Ctx) : Ctx :=
  { c with outstanding := c.outstanding + 1, trace := c.trace ++ [.beginOp] }

def Ctx.ended (c : Ctx) : Ctx :=
  { c with outstanding := c.outstanding - 1, trace := c.trace ++ [.endOp] }

theorem beginOp_spec : Triple (At c d) beginOp (fun _ => At c.begun d) (Fine c) := by
  apply Triple.get
  intro s hs
  split
  · exact spec_throw (by decide)
  · apply Triple.set
    intro _ _
    exact ⟨hs.res, congrArg (· + 1) hs.outstanding, congrArg (· ++ _) hs.trace⟩

theorem endOp_spec : Triple (At c d) endOp (fun _ => At c.ended d) (Fine c) := by
  have hdec : Triple (At c d) (modify fun s => { s with
      outstanding := s.outstanding - 1, trace := s.trace ++ [.endOp] })
      (fun _ => At c.ended d) (Fine c) := by
    apply Triple.modify
    intro s hs
    exact ⟨hs.res, congrArg (· - 1) hs.outstanding, congrArg (· ++ _) hs.trace⟩
  apply hdec.bind
  intro _
  apply spec_get
  intro s
  split
  · exact spec_throw (by decide)
  · split
    · apply (setCommitting_spec true).bind
      intro _
      apply commit_spec.bind
      intro _
      exact setCommitting_spec false
    · exact spec_pure rfl

end Specs

end Xv6.Kernel
