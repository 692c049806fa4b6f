import Xv6.Kernel.Path

namespace Xv6.Kernel
open Lib Fs
open Sys (tDir tFile)
set_option autoImplicit true

def short (n : Nat) : Int :=
  if n % 2 ^ 16 < 2 ^ 15 then (n % 2 ^ 16 : Nat) else (n % 2 ^ 16 : Nat) - 2 ^ 16

/-- `sys_mkdir` and `sys_mknod`, if `argstr` fetches the path. -/
def sysMake (cwd : Slot) (path : Option (List UInt8)) (type major minor : Nat) : FsM Int := do
  beginOp
  match path with
  | none =>
    endOp
    pure (-1)
  | some path =>
    let r ← create cwd path type major minor
    match r with
    | none =>
      endOp
      pure (-1)
    | some ip =>
      iunlockput ip
      endOp
      pure 0

def sysMkdir (cwd : Slot) (path : Option (List UInt8)) : FsM Int :=
  sysMake cwd path tDir 0 0

def sysMknod (cwd : Slot) (path : Option (List UInt8)) (major minor : Nat) : FsM Int :=
  sysMake cwd path tDev major minor

def linkBad (ip : Slot) : FsM Int := do
  ilock ip
  setIp ip (addNlink (2 ^ 16 - 1))
  iupdate ip
  iunlockput ip
  endOp
  pure (-1)

/-- `sys_link` once the new link of `ip` is counted. -/
def linkInto (cwd ip : Slot) (new : List UInt8) : FsM Int := do
  let r ← namex cwd new true
  match r with
  | none => linkBad ip
  | some (dp, name) =>
    ilock dp
    let s ← get
    let r ← dirlink dp name (s.inum ip)
    if r < 0 then
      iunlockput dp
      linkBad ip
    else
      iunlockput dp
      iput ip
      endOp
      pure 0

def sysLink (cwd : Slot) (args : Option (List UInt8 × List UInt8)) : FsM Int :=
  match args with
  | none => pure (-1)
  | some (old, new) => do
    beginOp
    let r ← namex cwd old false
    match r with
    | none =>
      endOp
      pure (-1)
    | some (ip, _) =>
      ilock ip
      let s ← get
      if (s.ip ip).type = tDir then
        iunlockput ip
        endOp
        pure (-1)
      else
        setIp ip (addNlink 1)
        iupdate ip
        iunlock ip
        linkInto cwd ip new

def emptyDirFrom (dp : Slot) : Nat → Nat → FsM Bool
  | 0, _ => pure true
  | fuel + 1, off => do
    let s ← get
    if off < (s.ip dp).size then
      let (bs, n) ← readi dp (UInt32.ofNat off) 16
      if n = 16 then
        if (dirent bs).inum = 0 then emptyDirFrom dp fuel (off + 16) else pure false
      else throw (.panic "isdirempty: readi")
    else pure true

def isdirempty (dp : Slot) : FsM Bool := do
  let s ← get
  emptyDirFrom dp ((s.ip dp).size / 16 + 2) 32

def unlinkBad (dp : Slot) : FsM Int := do
  iunlockput dp
  endOp
  pure (-1)

def unlinkDone (dp ip : Slot) : FsM Int := do
  iunlockput dp
  setIp ip (addNlink (2 ^ 16 - 1))
  iupdate ip
  iunlockput ip
  endOp
  pure 0

def unlinkEntry (dp ip : Slot) (off : Nat) : FsM Int := do
  let n ← writei dp (List.replicate 16 0) (UInt32.ofNat off) 16
  if n = 16 then
    let s ← get
    if (s.ip ip).type = tDir then
      setIp dp (addNlink (2 ^ 16 - 1))
      iupdate dp
      unlinkDone dp ip
    else unlinkDone dp ip
  else throw (.panic "unlink: writei")

/-- `sys_unlink` with both inodes locked and the entry found at `off`. -/
def unlinkAt (dp ip : Slot) (off : Nat) : FsM Int := do
  let s ← get
  if short (s.ip ip).nlink < 1 then throw (.panic "unlink: nlink < 1")
  else if (s.ip ip).type = tDir then
    let empty ← isdirempty ip
    if empty then unlinkEntry dp ip off
    else
      iunlockput ip
      unlinkBad dp
  else unlinkEntry dp ip off

def sysUnlink (cwd : Slot) (path : Option (List UInt8)) : FsM Int :=
  match path with
  | none => pure (-1)
  | some path => do
    beginOp
    let r ← namex cwd path true
    match r with
    | none =>
      endOp
      pure (-1)
    | some (dp, name) =>
      ilock dp
      if namecmp name [46] = 0 ∨ namecmp name [46, 46] = 0 then unlinkBad dp
      else
        let r ← dirlookup dp name
        match r with
        | none => unlinkBad dp
        | some (ip, off) =>
          ilock ip
          unlinkAt dp ip off

/-- What `setupkvm` and `allocuvm` answer to `exec`, and for the stack. -/
structure Vm where
  setupkvm : Bool
  allocuvm : Nat → Bool
  stack : Bool

def word (bs : List UInt8) (off : Nat) : UInt32 :=
  UInt32.ofNat ((bs.getD off 0).toNat + 2 ^ 8 * (bs.getD (off + 1) 0).toNat +
    2 ^ 16 * (bs.getD (off + 2) 0).toNat + 2 ^ 24 * (bs.getD (off + 3) 0).toNat)

abbrev pgSize : Nat := 4096

def loaduvm (ip : Slot) : Nat → UInt32 → Nat → FsM Bool
  | 0, _, _ => pure true
  | fuel + 1, off, n =>
    if n = 0 then pure true
    else do
      let m := min n pgSize
      let (_, r) ← readi ip off (UInt32.ofNat m)
      if r = m then loaduvm ip fuel (off + UInt32.ofNat m) (n - m) else pure false

/-- The loop of `exec` over the `k` program headers left, at `off`. -/
def loadSegments (ip : Slot) (vm : Vm) : Nat → Nat → UInt32 → FsM Bool
  | 0, _, _ => pure true
  | k + 1, i, off => do
    let (ph, n) ← readi ip off 32
    if n ≠ 32 then pure false
    else if word ph 0 ≠ 1 then loadSegments ip vm k (i + 1) (off + 32)
    else if word ph 20 < word ph 16 then pure false
    else if word ph 8 + word ph 20 < word ph 8 then pure false
    else if vm.allocuvm i = false then pure false
    else if (word ph 8).toNat % pgSize ≠ 0 then pure false
    else
      let loaded ← loaduvm ip ((word ph 16).toNat / pgSize + 1) (word ph 4) (word ph 16).toNat
      if loaded then loadSegments ip vm k (i + 1) (off + 32) else pure false

def execBad (ip : Slot) : FsM Int := do
  iunlockput ip
  endOp
  pure (-1)

def exec (cwd : Slot) (path : List UInt8) (vm : Vm) : FsM Int := do
  beginOp
  let r ← namex cwd path false
  match r with
  | none =>
    endOp
    pure (-1)
  | some (ip, _) =>
    ilock ip
    let (elf, n) ← readi ip 0 52
    if n ≠ 52 then execBad ip
    else if word elf 0 ≠ 0x464C457F then execBad ip
    else if vm.setupkvm = false then execBad ip
    else
      let loaded ← loadSegments ip vm ((word elf 44).toNat % 2 ^ 16) 0 (word elf 28)
      if loaded then
        iunlockput ip
        endOp
        if vm.stack then pure 0 else pure (-1)
      else execBad ip

section Specs
variable {c : Ctx} {d : Key → Int} {dp ip : Slot}

def Ctx.op (c : Ctx) : Ctx :=
  { c with trace := c.trace ++ [.beginOp, .endOp] }

theorem Ctx.ended_begun (c : Ctx) : c.begun.ended = c.op := by
  simp [Ctx.begun, Ctx.ended, Ctx.op]

/-- Inside an operation, `m` ends it and leaves the process with `d`. -/
abbrev Closes (c : Ctx) (x : Key → Int) (m : FsM α) (d : Key → Int) : Prop :=
  Triple (At c.begun x) m (fun _ => At c.op d) (Fine c)

theorem endOp_closes : Closes c d endOp d := by
  rw [Closes, ← Ctx.ended_begun]
  exact endOp_spec

theorem Closes.after {m : FsM α} {k : α → FsM β} {mid : α → Key → Int}
    (hm : Spec c.begun x m mid) (hk : ∀ a, Closes c (mid a) (k a) d) : Closes c x (m >>= k) d :=
  Triple.bind (E := Fine c) hm hk

theorem Closes.get {k : FsState → FsM β} (hk : ∀ s, Closes c x (k s) d) :
    Closes c x (MonadState.get >>= k) d :=
  Triple.get fun s hs => (hk s).conseq (fun _ ht => ht ▸ hs) fun _ _ ht => ht

theorem Closes.start {m : FsM α} (h : Closes c y m d) (hx : x = y) : Closes c x m d :=
  hx ▸ h

theorem endOp_closes_pure {a : α} (h : x = d) :
    Closes c x (endOp >>= fun _ => pure a : FsM α) d := by
  subst h
  apply endOp_closes.bind
  intro _
  exact Triple.pure fun _ hs => hs

theorem put_locked (d : Key → Int) (i : Slot) : d + ref i + lock i - lock i - ref i = d := by
  rw [add_sub_cancel_right, add_sub_cancel_right]

theorem sysMake_spec (h : Solvent d) (cwd : Slot) (path : Option (List UInt8))
    (type major minor : Nat) :
    Triple (At c d) (sysMake cwd path type major minor) (fun _ => At c.op d) (Fine c) := by
  apply beginOp_spec.bind
  intro _
  cases path with
  | none => exact endOp_closes_pure rfl
  | some path =>
    apply Closes.after (create_spec h cwd path type major minor)
    intro r
    cases r with
    | none => exact endOp_closes_pure (add_zero d)
    | some ip =>
      apply Closes.after (iunlockput_spec ip)
      intro _
      exact endOp_closes_pure ((congrArg (· - lock ip - ref ip) (add_assoc d _ _).symm).trans
        (put_locked d ip))

theorem linkBad_spec (h : Solvent d) : Closes c (d + ref ip) (linkBad ip) d := by
  apply Closes.after (ilock_spec (h.holds ip))
  intro _
  apply Closes.after (setIp_spec ip _)
  intro _
  apply Closes.after (iupdate_spec ip)
  intro _
  apply Closes.after (iunlockput_spec ip)
  intro _
  exact endOp_closes_pure (put_locked d ip)

theorem linkInto_spec (h : Solvent d) (cwd : Slot) (new : List UInt8) :
    Closes c (d + ref ip) (linkInto cwd ip new) d := by
  apply Closes.after (namex_spec (h.ref ip) cwd new true)
  intro r
  cases r with
  | none => exact (linkBad_spec h).start (add_zero _)
  | some x =>
    obtain ⟨dp, name⟩ := x
    have hdp := (h.ref ip).holds dp
    apply Closes.after (ilock_spec hdp)
    intro _
    apply Closes.get
    intro s
    apply Closes.after (dirlink_spec (by simpa [found] using hdp) name _)
    intro r
    split
    · apply Closes.after (iunlockput_spec dp)
      intro _
      exact (linkBad_spec h).start (put_locked _ dp)
    · apply Closes.after (iunlockput_spec dp)
      intro _
      apply Closes.after (iput_spec ip)
      intro _
      exact endOp_closes_pure (by
        show d + ref ip + ref dp + lock dp - lock dp - ref dp - ref ip = d
        rw [put_locked, add_sub_cancel_right])

/-- A call that may return before its operation starts. -/
abbrev Done (c : Ctx) (d : Key → Int) (s : FsState) : Prop :=
  At c d s ∨ At c.op d s

theorem Closes.begin {m : FsM α} (h : Closes c d m d) :
    Triple (At c d) (beginOp >>= fun _ => m) (fun _ => Done c d) (Fine c) := by
  apply beginOp_spec.bind
  intro _
  exact h.conseq (fun _ hs => hs) fun _ _ hs => .inr hs

theorem sysLink_spec (h : Solvent d) (cwd : Slot) (args : Option (List UInt8 × List UInt8)) :
    Triple (At c d) (sysLink cwd args) (fun _ => Done c d) (Fine c) := by
  cases args with
  | none => exact Triple.pure fun _ hs => .inl hs
  | some x =>
    obtain ⟨old, new⟩ := x
    apply Closes.begin
    apply Closes.after (namex_spec h cwd old false)
    intro r
    cases r with
    | none => exact endOp_closes_pure (add_zero d)
    | some x =>
      obtain ⟨ip, name⟩ := x
      apply Closes.after (ilock_spec (h.holds ip))
      intro _
      apply Closes.get
      intro s
      split
      · apply Closes.after (iunlockput_spec ip)
        intro _
        exact endOp_closes_pure (put_locked d ip)
      · apply Closes.after (setIp_spec ip _)
        intro _
        apply Closes.after (iupdate_spec ip)
        intro _
        apply Closes.after (iunlock_spec ip)
        intro _
        exact (linkInto_spec h cwd new).start (add_sub_cancel_right _ _)

theorem emptyDirFrom_spec (h : 1 ≤ d (.ref dp)) (fuel off : Nat) :
    Spec c d (emptyDirFrom dp fuel off) fun _ => d := by
  induction fuel generalizing off with
  | zero => exact spec_pure rfl
  | succ fuel ih =>
    apply spec_get
    intro s
    split
    · apply (readi_spec h _ _).bind
      rintro ⟨bs, n⟩
      dsimp only
      split
      · split
        · exact ih (off + 16)
        · exact spec_pure rfl
      · exact spec_throw (by decide)
    · exact spec_pure rfl

theorem isdirempty_spec (h : 1 ≤ d (.ref dp)) : Spec c d (isdirempty dp) fun _ => d :=
  spec_get fun _ => emptyDirFrom_spec h _ _

theorem unlinkBad_spec (dp : Slot) : Closes c (d + ref dp + lock dp) (unlinkBad dp) d := by
  apply Closes.after (iunlockput_spec dp)
  intro _
  exact endOp_closes_pure (put_locked d dp)

theorem put_both (d : Key → Int) (i j : Slot) :
    d + ref i + lock i + ref j + lock j - lock i - ref i = d + ref j + lock j := by
  abel

theorem unlinkDone_spec (dp ip : Slot) :
    Closes c (d + ref dp + lock dp + ref ip + lock ip) (unlinkDone dp ip) d := by
  apply Closes.after (iunlockput_spec dp)
  intro _
  rw [put_both]
  apply Closes.after (setIp_spec ip _)
  intro _
  apply Closes.after (iupdate_spec ip)
  intro _
  apply Closes.after (iunlockput_spec ip)
  intro _
  exact endOp_closes_pure (put_locked d ip)

theorem unlinkEntry_spec (h : Solvent d) (dp ip : Slot) (off : Nat) :
    Closes c (d + ref dp + lock dp + ref ip + lock ip) (unlinkEntry dp ip off) d := by
  have hdp : 1 ≤ (d + ref dp + lock dp + ref ip + lock ip) (.ref dp) := by
    have hd := h dp
    have hip := ref_nonneg ip dp
    simp only [Pi.add_apply, lock_ref, ref_self]
    omega
  apply Closes.after (writei_spec hdp _ _ _)
  intro n
  split
  · apply Closes.get
    intro s
    split
    · apply Closes.after (setIp_spec dp _)
      intro _
      apply Closes.after (iupdate_spec dp)
      intro _
      exact unlinkDone_spec dp ip
    · exact unlinkDone_spec dp ip
  · exact spec_throw (by decide)

theorem unlinkAt_spec (h : Solvent d) (dp ip : Slot) (off : Nat) :
    Closes c (d + ref dp + lock dp + ref ip + lock ip) (unlinkAt dp ip off) d := by
  have hip : 1 ≤ (d + ref dp + lock dp + ref ip + lock ip) (.ref ip) := by
    have hd := h ip
    have hdp := ref_nonneg dp ip
    simp only [Pi.add_apply, lock_ref, ref_self]
    omega
  apply Closes.get
  intro s
  split
  · exact spec_throw (by decide)
  · split
    · apply Closes.after (isdirempty_spec hip)
      intro empty
      split
      · exact unlinkEntry_spec h dp ip off
      · apply Closes.after (iunlockput_spec ip)
        intro _
        exact (unlinkBad_spec dp).start (put_locked _ ip)
    · exact unlinkEntry_spec h dp ip off

theorem sysUnlink_spec (h : Solvent d) (cwd : Slot) (path : Option (List UInt8)) :
    Triple (At c d) (sysUnlink cwd path) (fun _ => Done c d) (Fine c) := by
  cases path with
  | none => exact Triple.pure fun _ hs => .inl hs
  | some path =>
    apply Closes.begin
    apply Closes.after (namex_spec h cwd path true)
    intro r
    cases r with
    | none => exact endOp_closes_pure (add_zero d)
    | some x =>
      obtain ⟨dp, name⟩ := x
      have hdp := h.holds dp
      apply Closes.after (ilock_spec hdp)
      intro _
      split
      · exact unlinkBad_spec dp
      · apply Closes.after (dirlookup_spec (by simpa [found] using hdp) name)
        intro r
        cases r with
        | none => exact (unlinkBad_spec dp).start (add_zero _)
        | some x =>
          obtain ⟨ip, off⟩ := x
          have hip : 1 ≤ (d + ref dp + lock dp + ref ip) (.ref ip) := by
            have hd := h ip
            have hdp := ref_nonneg dp ip
            simp only [Pi.add_apply, lock_ref, ref_self]
            omega
          apply Closes.after (ilock_spec hip)
          intro _
          exact unlinkAt_spec h dp ip off

theorem loaduvm_spec (h : 1 ≤ d (.ref ip)) (fuel : Nat) (off : UInt32) (n : Nat) :
    Spec c d (loaduvm ip fuel off n) fun _ => d := by
  induction fuel generalizing off n with
  | zero => exact spec_pure rfl
  | succ fuel ih =>
    rw [loaduvm]
    split
    · exact spec_pure rfl
    · apply (readi_spec h _ _).bind
      rintro ⟨bs, r⟩
      dsimp only
      split
      · exact ih _ _
      · exact spec_pure rfl

theorem loadSegments_spec (h : 1 ≤ d (.ref ip)) (vm : Vm) (k i : Nat) (off : UInt32) :
    Spec c d (loadSegments ip vm k i off) fun _ => d := by
  induction k generalizing i off with
  | zero => exact spec_pure rfl
  | succ k ih =>
    apply (readi_spec h _ _).bind
    rintro ⟨ph, n⟩
    dsimp only
    split
    · exact spec_pure rfl
    · split
      · exact ih _ _
      · split
        · exact spec_pure rfl
        · split
          · exact spec_pure rfl
          · split
            · exact spec_pure rfl
            · split
              · exact spec_pure rfl
              · apply (loaduvm_spec h _ _ _).bind
                intro loaded
                split
                · exact ih _ _
                · exact spec_pure rfl

theorem execBad_spec (ip : Slot) : Closes c (d + ref ip + lock ip) (execBad ip) d := by
  apply Closes.after (iunlockput_spec ip)
  intro _
  exact endOp_closes_pure (put_locked d ip)

theorem exec_spec (h : Solvent d) (cwd : Slot) (path : List UInt8) (vm : Vm) :
    Triple (At c d) (exec cwd path vm) (fun _ => At c.op d) (Fine c) := by
  apply beginOp_spec.bind
  intro _
  apply Closes.after (namex_spec h cwd path false)
  intro r
  cases r with
  | none => exact endOp_closes_pure (add_zero d)
  | some x =>
    obtain ⟨ip, name⟩ := x
    have hip := h.holds ip
    have hip' : 1 ≤ (d + ref ip + lock ip) (.ref ip) := by simpa using hip
    apply Closes.after (ilock_spec hip)
    intro _
    apply Closes.after (readi_spec hip' 0 52)
    rintro ⟨elf, n⟩
    dsimp only
    split
    · exact execBad_spec ip
    · split
      · exact execBad_spec ip
      · split
        · exact execBad_spec ip
        · apply Closes.after (loadSegments_spec hip' vm _ _ _)
          intro loaded
          split
          · apply Closes.after (iunlockput_spec ip)
            intro _
            refine Closes.start ?_ (put_locked d ip)
            apply endOp_closes.bind
            intro _
            split
            · exact Triple.pure fun _ hs => hs
            · exact Triple.pure fun _ hs => hs
          · exact execBad_spec ip

end Specs

end Xv6.Kernel
