import Xv6.Kernel.Disk

namespace Xv6.Kernel
open Lib Fs Function
set_option autoImplicit true

def bzero (b : Nat) : FsM PUnit := do
  bread b
  setData b fun _ => 0
  logWrite b
  brelse b

/-- The loop of `balloc`, over the blocks `k` of the bitmap left. -/
def ballocFrom (sb : Superblock) : List Nat → FsM Nat
  | [] => throw (.panic "balloc: out of blocks")
  | k :: ks => do
    let bno := sb.bblock (k * bpb)
    bread bno
    let bp ← data bno
    match clearBitIn bp (min bpb (sb.size - k * bpb)) with
    | some bi =>
      setData bno (setBit bp bi)
      logWrite bno
      brelse bno
      bzero (k * bpb + bi)
      pure (k * bpb + bi)
    | none =>
      brelse bno
      ballocFrom sb ks

def balloc : FsM Nat := do
  let s ← get
  ballocFrom s.sb (List.range ((s.sb.size + (bpb - 1)) / bpb))

def bfree (b : Nat) : FsM PUnit := do
  let s ← get
  let bno := s.sb.bblock b
  bread bno
  let bp ← data bno
  if bitAt bp (b % bpb) = false then throw (.panic "freeing free block")
  else
    setData bno (clearBit bp (b % bpb))
    logWrite bno
    brelse bno

/-- `iget`: an entry with references, or one without any that is recycled. -/
def iget (inum : Nat) : FsM Slot := do
  let s ← get
  match (List.finRange Icache.nInode).find? fun i => 0 < s.ref i ∧ s.inum i = inum with
  | some i =>
    set { s with ref := update s.ref i (s.ref i + 1) }
    pure i
  | none =>
    match (List.finRange Icache.nInode).find? fun i => s.ref i = 0 with
    | some i =>
      set { s with
        inum := update s.inum i inum
        ref := update s.ref i 1
        valid := update s.valid i false }
      pure i
    | none => throw (.panic "iget: no inodes")

def idup (i : Slot) : FsM PUnit :=
  modify fun s => { s with ref := update s.ref i (s.ref i + 1) }

def dropRef (i : Slot) : FsM PUnit :=
  modify fun s => { s with ref := update s.ref i (s.ref i - 1) }

/-- `acquiresleep(&ip->lock)`; no other process would release it. -/
def acquiresleep (i : Slot) : FsM PUnit := do
  let s ← get
  if s.locked i then throw .blocked
  else set { s with locked := update s.locked i true }

def releasesleep (i : Slot) : FsM PUnit :=
  modify fun s => { s with locked := update s.locked i false }

def setIp (i : Slot) (f : Inode → Inode) : FsM PUnit :=
  modify fun s => { s with ip := update s.ip i (f (s.ip i)) }

def setValid (i : Slot) (b : Bool) : FsM PUnit :=
  modify fun s => { s with valid := update s.valid i b }

/-- The part of `ilock` that reads the inode from disk. -/
def loadInode (i : Slot) : FsM PUnit := do
  let s ← get
  if s.valid i then pure ()
  else
    let bno := s.sb.iblock (s.inum i)
    bread bno
    let blk ← data bno
    setIp i fun _ => readInode blk (s.inum i % ipb)
    brelse bno
    setValid i true
    if (readInode blk (s.inum i % ipb)).type = 0 then throw (.panic "ilock: no type") else pure ()

def ilock (i : Slot) : FsM PUnit := do
  let s ← get
  if s.ref i < 1 then throw (.panic "ilock")
  else
    acquiresleep i
    loadInode i

def iunlock (i : Slot) : FsM PUnit := do
  let s ← get
  if s.locked i = false ∨ s.ref i < 1 then throw (.panic "iunlock")
  else set { s with locked := update s.locked i false }

def iupdate (i : Slot) : FsM PUnit := do
  let s ← get
  let bno := s.sb.iblock (s.inum i)
  bread bno
  let blk ← data bno
  setData bno (writeInode blk (s.inum i % ipb) (s.ip i))
  logWrite bno
  brelse bno

/-- The loop of `ialloc`, over the inode numbers left. -/
def iallocFrom (sb : Superblock) (type : Nat) : List Nat → FsM Slot
  | [] => throw (.panic "ialloc: no inodes")
  | inum :: inums => do
    let bno := sb.iblock inum
    bread bno
    let blk ← data bno
    if (readInode blk (inum % ipb)).type = 0 then
      setData bno (writeInode blk (inum % ipb) ⟨type, 0, 0, 0, 0, fun _ => 0⟩)
      logWrite bno
      brelse bno
      iget inum
    else
      brelse bno
      iallocFrom sb type inums

def ialloc (type : Nat) : FsM Slot := do
  let s ← get
  iallocFrom s.sb type ((List.range s.sb.ninodes).drop 1)

/-- `ip->addrs[k]`, allocated if it is zero. -/
def addrOf (i : Slot) (k : Fin (nDirect + 1)) : FsM Nat := do
  let s ← get
  if (s.ip i).addrs k = 0 then
    let b ← balloc
    setIp i fun ip => { ip with addrs := update ip.addrs k b }
    pure b
  else pure ((s.ip i).addrs k)

/-- Word `k` of the indirect block `addr`, allocated if it is zero. -/
def indirect (addr k : Nat) : FsM Nat := do
  let a ← data addr
  if getWord a k = 0 then
    let b ← balloc
    let a ← data addr
    setData addr (putWord a k b)
    logWrite addr
    pure b
  else pure (getWord a k)

def bmap (i : Slot) (bn : Nat) : FsM Nat :=
  if h : bn < nDirect then addrOf i ⟨bn, Nat.lt_succ_of_lt h⟩
  else if bn - nDirect < nIndirect then do
    let addr ← addrOf i (Fin.last nDirect)
    bread addr
    let b ← indirect addr (bn - nDirect)
    brelse addr
    pure b
  else throw (.panic "bmap: out of range")

/-- The loop of `itrunc` over the direct blocks. -/
def freeDirect (i : Slot) : List (Fin nDirect) → FsM PUnit
  | [] => pure ()
  | k :: ks => do
    let s ← get
    if (s.ip i).addrs k.castSucc = 0 then freeDirect i ks
    else
      bfree ((s.ip i).addrs k.castSucc)
      setIp i fun ip => { ip with addrs := update ip.addrs k.castSucc 0 }
      freeDirect i ks

/-- The loop of `itrunc` over the words of the indirect block. -/
def freeWords (addr : Nat) : List Nat → FsM PUnit
  | [] => pure ()
  | j :: js => do
    let a ← data addr
    if getWord a j = 0 then freeWords addr js
    else
      bfree (getWord a j)
      freeWords addr js

def freeIndirect (i : Slot) : FsM PUnit := do
  let s ← get
  let addr := (s.ip i).addrs (Fin.last nDirect)
  if addr = 0 then pure ()
  else
    bread addr
    freeWords addr (List.range nIndirect)
    brelse addr
    bfree addr
    setIp i fun ip => { ip with addrs := update ip.addrs (Fin.last nDirect) 0 }

def itrunc (i : Slot) : FsM PUnit := do
  freeDirect i (List.finRange nDirect)
  freeIndirect i
  setIp i fun ip => { ip with size := 0 }
  iupdate i

/-- The part of `iput` that frees an inode without links. -/
def iputFree (i : Slot) : FsM PUnit := do
  let s ← get
  if s.valid i ∧ (s.ip i).nlink = 0 ∧ s.ref i = 1 then
    itrunc i
    setIp i fun ip => { ip with type := 0 }
    iupdate i
    setValid i false
  else pure ()

def iput (i : Slot) : FsM PUnit := do
  acquiresleep i
  iputFree i
  releasesleep i
  dropRef i

def iunlockput (i : Slot) : FsM PUnit := do
  iunlock i
  iput i

def consoleread (i : Slot) : FsM (List UInt8 × Int) := do
  iunlock i
  let s ← get
  match s.console with
  | [] => throw .blocked
  | x :: xs =>
    set { s with console := xs }
    ilock i
    pure x

def consolewrite (i : Slot) (n : Nat) : FsM Int := do
  iunlock i
  ilock i
  pure n

/-- `devsw` has handlers for the console only. -/
abbrev consoleMajor : Nat := 1

/-- The loop of `readi`, with `n` bytes left; at most `n` rounds. -/
def readLoop (i : Slot) : Nat → Nat → Nat → FsM (List UInt8)
  | 0, _, _ => pure []
  | fuel + 1, off, n =>
    if n = 0 then pure []
    else do
      let b ← bmap i (off / bSize)
      bread b
      let blk ← data b
      brelse b
      let m := min n (bSize - off % bSize)
      let rest ← readLoop i fuel (off + m) (n - m)
      pure ((List.range m).map (fun k => byteAt blk (off % bSize + k)) ++ rest)

/-- What `readi` copies and returns. -/
def readi (i : Slot) (off n : UInt32) : FsM (List UInt8 × Int) := do
  let s ← get
  let ip := s.ip i
  if ip.type = tDev then
    if ip.major = consoleMajor then consoleread i else pure ([], -1)
  else if ip.size < off.toNat ∨ off + n < off then pure ([], -1)
  else
    let n := if ip.size < (off + n).toNat then ip.size - off.toNat else n.toNat
    let dst ← readLoop i n off.toNat n
    pure (dst, n)

def writeLoop (i : Slot) : Nat → List UInt8 → Nat → Nat → FsM PUnit
  | 0, _, _, _ => pure ()
  | fuel + 1, src, off, n =>
    if n = 0 then pure ()
    else do
      let b ← bmap i (off / bSize)
      bread b
      let blk ← data b
      let m := min n (bSize - off % bSize)
      setData b (memmove blk (off % bSize) m fun k => src.getD k 0)
      logWrite b
      brelse b
      writeLoop i fuel (src.drop m) (off + m) (n - m)

def writei (i : Slot) (src : List UInt8) (off n : UInt32) : FsM Int := do
  let s ← get
  let ip := s.ip i
  if ip.type = tDev then
    if ip.major = consoleMajor then consolewrite i n.toNat else pure (-1)
  else if ip.size < off.toNat ∨ off + n < off then pure (-1)
  else if maxFile * bSize < (off + n).toNat then pure (-1)
  else
    writeLoop i n.toNat src off.toNat n.toNat
    if 0 < n.toNat ∧ ip.size < (off + n).toNat then
      setIp i fun ip => { ip with size := (off + n).toNat }
      iupdate i
      pure n.toNat
    else pure n.toNat

section Specs
variable {c : Ctx} {d : Key → Int} {s : FsState} {i : Slot}

theorem bzero_spec (b : Nat) : Spec c d (bzero b) fun _ => d := by
  apply (bread_spec b).bind
  intro _
  apply (setData_spec b _).bind
  intro _
  apply (logWrite_spec b).bind
  intro _
  exact (brelse_spec b).congr fun _ => add_sub_cancel_right d _

theorem ballocFrom_spec (sb : Superblock) (ks : List Nat) :
    Spec c d (ballocFrom sb ks) fun _ => d := by
  induction ks with
  | nil => exact spec_throw (by decide)
  | cons k ks ih =>
    apply (bread_spec _).bind
    intro _
    apply (data_spec _).bind
    intro bp
    split
    · apply (setData_spec _ _).bind
      intro _
      apply (logWrite_spec _).bind
      intro _
      apply (brelse_spec _).bind
      intro _
      rw [add_sub_cancel_right]
      apply (bzero_spec _).bind
      intro _
      exact spec_pure rfl
    · apply (brelse_spec _).bind
      intro _
      rw [add_sub_cancel_right]
      exact ih

theorem balloc_spec : Spec c d balloc fun _ => d :=
  spec_get fun _ => ballocFrom_spec _ _

theorem bfree_spec (b : Nat) : Spec c d (bfree b) fun _ => d := by
  apply spec_get
  intro s
  apply (bread_spec _).bind
  intro _
  apply (data_spec _).bind
  intro bp
  split
  · exact spec_throw (by decide)
  · apply (setData_spec _ _).bind
    intro _
    apply (logWrite_spec _).bind
    intro _
    exact (brelse_spec _).congr fun _ => add_sub_cancel_right d _

theorem res_addRef (h : n = s.ref i + 1) :
    FsState.res { s with ref := update s.ref i n } = s.res + ref i := by
  funext k
  cases k with
  | buf b => simp [FsState.res, ref]
  | lock j => simp [FsState.res, ref]
  | ref j =>
    by_cases hj : j = i
    · subst hj
      simp [FsState.res, ref, h]
    · simp [FsState.res, ref, hj]

theorem res_dropRef (s : FsState) (i : Slot) :
    FsState.res { s with ref := update s.ref i (s.ref i - 1) } + ref i = s.res := by
  funext k
  cases k with
  | buf b => simp [FsState.res, ref]
  | lock j => simp [FsState.res, ref]
  | ref j =>
    by_cases hj : j = i
    · subst hj
      simp [FsState.res, ref]
    · simp [FsState.res, ref, hj]

theorem res_lock (h : s.locked i = false) :
    FsState.res { s with locked := update s.locked i true } = s.res + lock i := by
  funext k
  cases k with
  | buf b => simp [FsState.res, lock]
  | ref j => simp [FsState.res, lock]
  | lock j =>
    by_cases hj : j = i
    · subst hj
      simp [FsState.res, lock, h]
    · simp [FsState.res, lock, hj]

theorem res_unlock (h : s.locked i = true) :
    FsState.res { s with locked := update s.locked i false } + lock i = s.res := by
  funext k
  cases k with
  | buf b => simp [FsState.res, lock]
  | ref j => simp [FsState.res, lock]
  | lock j =>
    by_cases hj : j = i
    · subst hj
      simp [FsState.res, lock, h]
    · simp [FsState.res, lock, hj]

theorem iget_spec (inum : Nat) : Spec c d (iget inum) fun i => d + ref i := by
  apply Triple.get
  intro s hs
  split
  · next i _ =>
    refine Triple.bind (Q := fun _ => At c (d + ref i)) (Triple.set fun _ _ => ?_) fun _ => ?_
    · exact hs.add (res_addRef rfl) rfl rfl
    · exact spec_pure rfl
  · split
    · next i hi =>
      have hz : s.ref i = 0 := by simpa using List.find?_some hi
      have hr := res_addRef (s := s) (i := i) (n := 1) (by rw [hz]; rfl)
      refine Triple.bind (Q := fun _ => At c (d + ref i)) (Triple.set fun _ _ => ?_) fun _ => ?_
      · exact hs.add hr rfl rfl
      · exact spec_pure rfl
    · exact spec_throw (by decide)

theorem idup_spec (i : Slot) : Spec c d (idup i) fun _ => d + ref i :=
  Triple.modify fun _ hs => hs.add (res_addRef rfl) rfl rfl

theorem dropRef_spec (i : Slot) : Spec c d (dropRef i) fun _ => d - ref i :=
  Triple.modify fun s hs => hs.sub (res_dropRef s i) rfl rfl

theorem acquiresleep_spec (i : Slot) :
    Triple (At c d) (acquiresleep i)
      (fun _ s => At c (d + lock i) s ∧ c.base (.lock i) + d (.lock i) = 0) (Fine c) := by
  apply Triple.get
  intro s hs
  split
  · exact spec_throw (by decide)
  · next hl =>
    have hfree : s.locked i = false := Bool.not_eq_true _ ▸ hl
    apply Triple.set
    intro _ _
    refine ⟨hs.add (res_lock hfree) rfl rfl, ?_⟩
    have hz := congrFun hs.res (.lock i)
    simp only [FsState.res, hfree, Bool.false_eq_true, if_false] at hz
    exact hz.symm

theorem releasesleep_spec (h : c.base (.lock i) + d (.lock i) = 0) :
    Spec c (d + lock i) (releasesleep i) fun _ => d := by
  apply Triple.modify
  intro s hs
  have hlock : s.locked i = true := by
    have hone := congrFun hs.res (.lock i)
    simp only [FsState.res, lock, Pi.add_apply, Pi.single_eq_same, ← add_assoc, h] at hone
    by_contra hl
    rw [if_neg hl] at hone
    cases hone
  rw [← add_sub_cancel_right d (lock i)]
  exact hs.sub (res_unlock hlock) rfl rfl

theorem setIp_spec (i : Slot) (f : Inode → Inode) : Spec c d (setIp i f) fun _ => d :=
  spec_modify (fun _ => rfl) (fun _ => rfl) fun _ => rfl

theorem setValid_spec (i : Slot) (b : Bool) : Spec c d (setValid i b) fun _ => d :=
  spec_modify (fun _ => rfl) (fun _ => rfl) fun _ => rfl

theorem loadInode_spec (i : Slot) : Spec c d (loadInode i) fun _ => d := by
  apply spec_get
  intro s
  split
  · exact spec_pure rfl
  · apply (bread_spec _).bind
    intro _
    apply (data_spec _).bind
    intro blk
    apply (setIp_spec i _).bind
    intro _
    apply (brelse_spec _).bind
    intro _
    rw [add_sub_cancel_right]
    apply (setValid_spec i true).bind
    intro _
    split
    · exact spec_throw (by decide)
    · exact spec_pure rfl

/-- A process may lock an inode it holds a reference to. -/
theorem ilock_spec (h : 1 ≤ d (.ref i)) : Spec c d (ilock i) fun _ => d + lock i := by
  apply Triple.get
  intro s hs
  split
  · next hr =>
    apply Triple.throw
    intro _
    have he : s.ref i = c.base (.ref i) + d (.ref i) := congrFun hs.res (.ref i)
    exact ⟨i, by omega⟩
  · refine Triple.conseq (P := At c d) ?_ (fun t ht => ht ▸ hs) fun _ _ ht => ht
    apply (acquiresleep_spec i).bind
    intro _
    exact Triple.known fun _ => loadInode_spec i

theorem iunlock_spec (i : Slot) : Spec c d (iunlock i) fun _ => d - lock i := by
  apply Triple.get
  intro s hs
  split
  · exact spec_throw (by decide)
  · next hl =>
    have hlock : s.locked i = true := by
      cases he : s.locked i with
      | false => exact absurd (.inl he) hl
      | true => rfl
    exact Triple.set fun _ _ => hs.sub (res_unlock hlock) rfl rfl

theorem iupdate_spec (i : Slot) : Spec c d (iupdate i) fun _ => d := by
  apply spec_get
  intro s
  apply (bread_spec _).bind
  intro _
  apply (data_spec _).bind
  intro blk
  apply (setData_spec _ _).bind
  intro _
  apply (logWrite_spec _).bind
  intro _
  exact (brelse_spec _).congr fun _ => add_sub_cancel_right d _

theorem iallocFrom_spec (sb : Superblock) (type : Nat) (inums : List Nat) :
    Spec c d (iallocFrom sb type inums) fun i => d + ref i := by
  induction inums with
  | nil => exact spec_throw (by decide)
  | cons inum inums ih =>
    apply (bread_spec _).bind
    intro _
    apply (data_spec _).bind
    intro blk
    split
    · apply (setData_spec _ _).bind
      intro _
      apply (logWrite_spec _).bind
      intro _
      apply (brelse_spec _).bind
      intro _
      rw [add_sub_cancel_right]
      exact iget_spec inum
    · apply (brelse_spec _).bind
      intro _
      rw [add_sub_cancel_right]
      exact ih

theorem ialloc_spec (type : Nat) : Spec c d (ialloc type) fun i => d + ref i :=
  spec_get fun _ => iallocFrom_spec _ type _

theorem addrOf_spec (i : Slot) (k : Fin (nDirect + 1)) : Spec c d (addrOf i k) fun _ => d := by
  apply spec_get
  intro s
  split
  · apply balloc_spec.bind
    intro b
    apply (setIp_spec i _).bind
    intro _
    exact spec_pure rfl
  · exact spec_pure rfl

theorem indirect_spec (addr k : Nat) : Spec c d (indirect addr k) fun _ => d := by
  apply (data_spec addr).bind
  intro a
  split
  · apply balloc_spec.bind
    intro b
    apply (data_spec addr).bind
    intro a
    apply (setData_spec addr _).bind
    intro _
    apply (logWrite_spec addr).bind
    intro _
    exact spec_pure rfl
  · exact spec_pure rfl

theorem bmap_spec (i : Slot) (bn : Nat) : Spec c d (bmap i bn) fun _ => d := by
  rw [bmap]
  split
  · exact addrOf_spec i _
  · split
    · apply (addrOf_spec i _).bind
      intro addr
      apply (bread_spec addr).bind
      intro _
      apply (indirect_spec addr _).bind
      intro b
      apply (brelse_spec addr).bind
      intro _
      exact spec_pure (add_sub_cancel_right d _)
    · exact spec_throw (by decide)

theorem freeDirect_spec (i : Slot) (ks : List (Fin nDirect)) :
    Spec c d (freeDirect i ks) fun _ => d := by
  induction ks with
  | nil => exact spec_pure rfl
  | cons k ks ih =>
    apply spec_get
    intro s
    split
    · exact ih
    · apply (bfree_spec _).bind
      intro _
      apply (setIp_spec i _).bind
      intro _
      exact ih

theorem freeWords_spec (addr : Nat) (js : List Nat) : Spec c d (freeWords addr js) fun _ => d := by
  induction js with
  | nil => exact spec_pure rfl
  | cons j js ih =>
    apply (data_spec addr).bind
    intro a
    split
    · exact ih
    · apply (bfree_spec _).bind
      intro _
      exact ih

theorem freeIndirect_spec (i : Slot) : Spec c d (freeIndirect i) fun _ => d := by
  apply spec_get
  intro s
  dsimp only
  split
  · exact spec_pure rfl
  · apply (bread_spec _).bind
    intro _
    apply (freeWords_spec _ _).bind
    intro _
    apply (brelse_spec _).bind
    intro _
    rw [add_sub_cancel_right]
    apply (bfree_spec _).bind
    intro _
    exact setIp_spec i _

theorem itrunc_spec (i : Slot) : Spec c d (itrunc i) fun _ => d := by
  apply (freeDirect_spec i _).bind
  intro _
  apply (freeIndirect_spec i).bind
  intro _
  apply (setIp_spec i _).bind
  intro _
  exact iupdate_spec i

theorem iputFree_spec (i : Slot) : Spec c d (iputFree i) fun _ => d := by
  apply spec_get
  intro s
  split
  · apply (itrunc_spec i).bind
    intro _
    apply (setIp_spec i _).bind
    intro _
    apply (iupdate_spec i).bind
    intro _
    exact setValid_spec i false
  · exact spec_pure rfl

theorem iput_spec (i : Slot) : Spec c d (iput i) fun _ => d - ref i := by
  apply (acquiresleep_spec i).bind
  intro _
  apply Triple.known
  intro hfree
  apply (iputFree_spec i).bind
  intro _
  apply (releasesleep_spec hfree).bind
  intro _
  exact dropRef_spec i

theorem iunlockput_spec (i : Slot) : Spec c d (iunlockput i) fun _ => d - lock i - ref i := by
  apply (iunlock_spec i).bind
  intro _
  exact iput_spec i

@[simp] theorem lock_ref (j i : Slot) : lock j (.ref i) = 0 := by
  simp [lock]

@[simp] theorem ref_self (i : Slot) : ref i (.ref i) = 1 := by
  simp [ref]

theorem ref_nonneg (j i : Slot) : 0 ≤ ref j (.ref i) := by
  by_cases h : i = j
  · subst h
    simp
  · simp [ref, h]

theorem consoleread_spec (h : 1 ≤ d (.ref i)) : Spec c d (consoleread i) fun _ => d := by
  apply (iunlock_spec i).bind
  intro _
  apply Triple.get
  intro s hs
  split
  · exact spec_throw (by decide)
  · next x xs _ =>
    refine Triple.bind (Q := fun _ => At c (d - lock i)) (Triple.set fun _ _ => ?_) fun _ => ?_
    · exact hs.same rfl rfl rfl
    · apply (ilock_spec (by simpa using h)).bind
      intro _
      exact spec_pure (sub_add_cancel d _)

theorem consolewrite_spec (h : 1 ≤ d (.ref i)) (n : Nat) :
    Spec c d (consolewrite i n) fun _ => d := by
  apply (iunlock_spec i).bind
  intro _
  apply (ilock_spec (by simpa using h)).bind
  intro _
  exact spec_pure (sub_add_cancel d _)

theorem readLoop_spec (i : Slot) (fuel off n : Nat) : Spec c d (readLoop i fuel off n) fun _ => d := by
  induction fuel generalizing off n with
  | zero => exact spec_pure rfl
  | succ fuel ih =>
    rw [readLoop]
    split
    · exact spec_pure rfl
    · apply (bmap_spec i _).bind
      intro b
      apply (bread_spec b).bind
      intro _
      apply (data_spec b).bind
      intro blk
      apply (brelse_spec b).bind
      intro _
      rw [add_sub_cancel_right]
      apply (ih _ _).bind
      intro rest
      exact spec_pure rfl

theorem readi_spec (h : 1 ≤ d (.ref i)) (off n : UInt32) : Spec c d (readi i off n) fun _ => d := by
  apply spec_get
  intro s
  dsimp only
  split
  · split
    · exact consoleread_spec h
    · exact spec_pure rfl
  · split
    · exact spec_pure rfl
    · apply (readLoop_spec i _ _ _).bind
      intro dst
      exact spec_pure rfl

theorem writeLoop_spec (i : Slot) (fuel : Nat) (src : List UInt8) (off n : Nat) :
    Spec c d (writeLoop i fuel src off n) fun _ => d := by
  induction fuel generalizing src off n with
  | zero => exact spec_pure rfl
  | succ fuel ih =>
    rw [writeLoop]
    split
    · exact spec_pure rfl
    · apply (bmap_spec i _).bind
      intro b
      apply (bread_spec b).bind
      intro _
      apply (data_spec b).bind
      intro blk
      apply (setData_spec b _).bind
      intro _
      apply (logWrite_spec b).bind
      intro _
      apply (brelse_spec b).bind
      intro _
      rw [add_sub_cancel_right]
      exact ih _ _ _

theorem writei_spec (h : 1 ≤ d (.ref i)) (src : List UInt8) (off n : UInt32) :
    Spec c d (writei i src off n) fun _ => d := by
  apply spec_get
  intro s
  dsimp only
  split
  · split
    · exact consolewrite_spec h _
    · exact spec_pure rfl
  · split
    · exact spec_pure rfl
    · split
      · exact spec_pure rfl
      · apply (writeLoop_spec i _ _ _ _).bind
        intro _
        split
        · apply (setIp_spec i _).bind
          intro _
          apply (iupdate_spec i).bind
          intro _
          exact spec_pure rfl
        · exact spec_pure rfl

end Specs

end Xv6.Kernel
