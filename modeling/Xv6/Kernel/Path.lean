import Xv6.Kernel.Inode
import Xv6.Sys.Calls

namespace Xv6.Kernel
open Lib Fs
open Sys (elems slash rootIno tDir tFile)
set_option autoImplicit true

def dirent (bs : List UInt8) : Dirent :=
  ⟨(bs.getD 0 0).toNat + 256 * (bs.getD 1 0).toNat, (bs.drop 2).take dirSiz⟩

def direntBytes (de : Dirent) : List UInt8 :=
  UInt8.ofNat de.inum :: UInt8.ofNat (de.inum / 256) :: de.name

/-- The loop of `dirlookup` from `off` on, an entry each round. -/
def lookupFrom (dp : Slot) (name : List UInt8) : Nat → Nat → FsM (Option (Slot × Nat))
  | 0, _ => pure none
  | fuel + 1, off => do
    let s ← get
    if off < (s.ip dp).size then
      let (bs, n) ← readi dp (UInt32.ofNat off) 16
      if n = 16 then
        if (dirent bs).inum = 0 ∨ namecmp name (dirent bs).name ≠ 0 then
          lookupFrom dp name fuel (off + 16)
        else
          let i ← iget (dirent bs).inum
          pure (some (i, off))
      else throw (.panic "dirlookup read")
    else pure none

/-- `dirlookup`, with the offset that it leaves in `*poff`. -/
def dirlookup (dp : Slot) (name : List UInt8) : FsM (Option (Slot × Nat)) := do
  let s ← get
  if (s.ip dp).type = tDir then lookupFrom dp name ((s.ip dp).size / 16 + 2) 0
  else throw (.panic "dirlookup not DIR")

/-- The loop of `dirlink` that looks for an empty entry. -/
def emptyFrom (dp : Slot) : Nat → Nat → FsM Nat
  | 0, off => pure off
  | fuel + 1, off => do
    let s ← get
    if off < (s.ip dp).size then
      let (bs, n) ← readi dp (UInt32.ofNat off) 16
      if n = 16 then
        if (dirent bs).inum = 0 then pure off else emptyFrom dp fuel (off + 16)
      else throw (.panic "dirlink read")
    else pure off

def dirlink (dp : Slot) (name : List UInt8) (inum : Nat) : FsM Int := do
  let r ← dirlookup dp name
  match r with
  | some (ip, _) =>
    iput ip
    pure (-1)
  | none =>
    let s ← get
    let off ← emptyFrom dp ((s.ip dp).size / 16 + 2) 0
    let n ← writei dp (direntBytes ⟨inum % 2 ^ 16, strncpy dirSiz name⟩) (UInt32.ofNat off) 16
    if n = 16 then pure 0 else throw (.panic "dirlink")

/-- The loop of `namex`, over the elements left. -/
def namexLoop (parent : Bool) (ip : Slot) : List (List UInt8) → FsM (Option (Slot × List UInt8))
  | [] =>
    if parent then do
      iput ip
      pure none
    else pure (some (ip, []))
  | name :: rest => do
    ilock ip
    let s ← get
    if (s.ip ip).type = tDir then
      if parent = true ∧ rest = [] then
        iunlock ip
        pure (some (ip, name))
      else
        let r ← dirlookup ip name
        match r with
        | none =>
          iunlockput ip
          pure none
        | some (next, _) =>
          iunlockput ip
          namexLoop parent next rest
    else
      iunlockput ip
      pure none

def namex (cwd : Slot) (path : List UInt8) (parent : Bool) :
    FsM (Option (Slot × List UInt8)) :=
  if path.headD 0 = slash then do
    let ip ← iget rootIno
    namexLoop parent ip (elems path)
  else do
    idup cwd
    namexLoop parent cwd (elems path)

/-- `ip->nlink += k`, in 16 bits. -/
def addNlink (k : Nat) (ip : Inode) : Inode :=
  { ip with nlink := (ip.nlink + k) % 2 ^ 16 }

def makeDots (dp ip : Slot) : FsM PUnit := do
  setIp dp (addNlink 1)
  iupdate dp
  let s ← get
  let r ← dirlink ip [46] (s.inum ip)
  if r < 0 then throw (.panic "create dots")
  else
    let r ← dirlink ip [46, 46] (s.inum dp)
    if r < 0 then throw (.panic "create dots") else pure ()

def enterName (dp ip : Slot) (name : List UInt8) : FsM (Option Slot) := do
  let s ← get
  let r ← dirlink dp name (s.inum ip)
  if r < 0 then throw (.panic "create: dirlink")
  else
    iunlockput dp
    pure (some ip)

def createIn (dp : Slot) (name : List UInt8) (type major minor : Nat) : FsM (Option Slot) := do
  let ip ← ialloc type
  ilock ip
  setIp ip fun v => { v with major := major, minor := minor, nlink := 1 }
  iupdate ip
  if type = tDir then
    makeDots dp ip
    enterName dp ip name
  else enterName dp ip name

def create (cwd : Slot) (path : List UInt8) (type major minor : Nat) : FsM (Option Slot) := do
  let r ← namex cwd path true
  match r with
  | none => pure none
  | some (dp, name) =>
    ilock dp
    let r ← dirlookup dp name
    match r with
    | some (ip, _) =>
      iunlockput dp
      ilock ip
      let s ← get
      if type = tFile ∧ (s.ip ip).type = tFile then pure (some ip)
      else
        iunlockput ip
        pure none
    | none => createIn dp name type major minor

section Specs
variable {c : Ctx} {d : Key → Int} {i dp ip cwd : Slot}

/-- The reference that a search returns. -/
def found (r : Option (Slot × α)) : Key → Int :=
  r.elim 0 fun x => ref x.1

theorem lookupFrom_spec (h : 1 ≤ d (.ref dp)) (name : List UInt8) (fuel off : Nat) :
    Spec c d (lookupFrom dp name fuel off) fun r => d + found r := by
  induction fuel generalizing off with
  | zero => exact spec_pure (add_zero d).symm
  | succ fuel ih =>
    apply spec_get
    intro s
    split
    · apply (readi_spec h _ _).bind
      rintro ⟨bs, n⟩
      dsimp only
      split
      · split
        · exact ih (off + 16)
        · apply (iget_spec _).bind
          intro i
          exact spec_pure rfl
      · exact spec_throw (by decide)
    · exact spec_pure (add_zero d).symm

theorem dirlookup_spec (h : 1 ≤ d (.ref dp)) (name : List UInt8) :
    Spec c d (dirlookup dp name) fun r => d + found r := by
  apply spec_get
  intro s
  split
  · exact lookupFrom_spec h name _ _
  · exact spec_throw (by decide)

theorem emptyFrom_spec (h : 1 ≤ d (.ref dp)) (fuel off : Nat) :
    Spec c d (emptyFrom dp fuel off) fun _ => d := by
  induction fuel generalizing off with
  | zero => exact spec_pure rfl
  | succ fuel ih =>
    apply spec_get
    intro s
    split
    · apply (readi_spec h _ _).bind
      rintro ⟨bs, n⟩
      dsimp only
      split
      · split
        · exact spec_pure rfl
        · exact ih (off + 16)
      · exact spec_throw (by decide)
    · exact spec_pure rfl

theorem dirlink_spec (h : 1 ≤ d (.ref dp)) (name : List UInt8) (inum : Nat) :
    Spec c d (dirlink dp name inum) fun _ => d := by
  apply (dirlookup_spec h name).bind
  intro r
  cases r with
  | some x =>
    apply (iput_spec x.1).bind
    intro _
    exact spec_pure (add_sub_cancel_right d _)
  | none =>
    refine Spec.start d ?_ (add_zero d)
    apply spec_get
    intro s
    apply (emptyFrom_spec h _ _).bind
    intro off
    apply (writei_spec h _ _ _).bind
    intro n
    split
    · exact spec_pure rfl
    · exact spec_throw (by decide)

def Solvent (d : Key → Int) : Prop :=
  ∀ i, 0 ≤ d (.ref i)

theorem Solvent.ref (h : Solvent d) (i : Slot) : Solvent (d + ref i) := by
  intro j
  exact add_nonneg (h j) (ref_nonneg i j)

theorem Solvent.holds (h : Solvent d) (i : Slot) : 1 ≤ (d + Kernel.ref i) (.ref i) := by
  have := h i
  simp only [Pi.add_apply, ref_self]
  omega

theorem namexLoop_spec (h : Solvent d) (parent : Bool) (names : List (List UInt8)) :
    Spec c (d + ref ip) (namexLoop parent ip names) fun r => d + found r := by
  induction names generalizing ip with
  | nil =>
    rw [namexLoop]
    split
    · apply (iput_spec ip).bind
      intro _
      exact spec_pure (by simp [found])
    · exact spec_pure rfl
  | cons name rest ih =>
    have hip := h.holds ip
    apply (ilock_spec hip).bind
    intro _
    apply spec_get
    intro s
    split
    · split
      · apply (iunlock_spec ip).bind
        intro _
        exact spec_pure (add_sub_cancel_right _ _)
      · apply (dirlookup_spec (by simpa using hip) name).bind
        intro r
        cases r with
        | none =>
          apply (iunlockput_spec ip).bind
          intro _
          exact spec_pure (by simp [found])
        | some x =>
          apply (iunlockput_spec ip).bind
          intro _
          exact ih.start _ (by simp only [found, Option.elim_some]; abel)
    · apply (iunlockput_spec ip).bind
      intro _
      exact spec_pure (by simp [found])

theorem namex_spec (h : Solvent d) (cwd : Slot) (path : List UInt8) (parent : Bool) :
    Spec c d (namex cwd path parent) fun r => d + found r := by
  rw [namex]
  split
  · apply (iget_spec rootIno).bind
    intro ip
    exact namexLoop_spec h parent _
  · apply (idup_spec cwd).bind
    intro _
    exact namexLoop_spec h parent _

theorem makeDots_spec (hip : 1 ≤ d (.ref ip)) : Spec c d (makeDots dp ip) fun _ => d := by
  apply (setIp_spec dp _).bind
  intro _
  apply (iupdate_spec dp).bind
  intro _
  apply spec_get
  intro s
  apply (dirlink_spec hip _ _).bind
  intro r
  split
  · exact spec_throw (by decide)
  · apply (dirlink_spec hip _ _).bind
    intro r
    split
    · exact spec_throw (by decide)
    · exact spec_pure rfl

def created (r : Option Slot) : Key → Int :=
  r.elim 0 fun i => ref i + lock i

theorem enterName_spec (h : Solvent d) (name : List UInt8) :
    Spec c (d + ref dp + lock dp + ref ip + lock ip) (enterName dp ip name)
      fun r => d + created r := by
  have hdp : 1 ≤ (d + ref dp + lock dp + ref ip + lock ip) (.ref dp) := by
    have hd := h dp
    have hip := ref_nonneg ip dp
    simp only [Pi.add_apply, lock_ref, ref_self]
    omega
  apply spec_get
  intro s
  apply (dirlink_spec hdp _ _).bind
  intro r
  split
  · exact spec_throw (by decide)
  · apply (iunlockput_spec dp).bind
    intro _
    exact spec_pure (by simp only [created, Option.elim_some]; abel)

theorem createIn_spec (h : Solvent d) (name : List UInt8) (type major minor : Nat) :
    Spec c (d + ref dp + lock dp) (createIn dp name type major minor) fun r => d + created r := by
  apply (ialloc_spec type).bind
  intro ip
  have hip : 1 ≤ (d + ref dp + lock dp + ref ip) (.ref ip) := by
    have hd := h ip
    have hdp := ref_nonneg dp ip
    simp only [Pi.add_apply, lock_ref, ref_self]
    omega
  apply (ilock_spec hip).bind
  intro _
  apply (setIp_spec ip _).bind
  intro _
  apply (iupdate_spec ip).bind
  intro _
  split
  · apply (makeDots_spec (by simpa using hip)).bind
    intro _
    exact enterName_spec h name
  · exact enterName_spec h name

theorem create_spec (h : Solvent d) (cwd : Slot) (path : List UInt8) (type major minor : Nat) :
    Spec c d (create cwd path type major minor) fun r => d + created r := by
  apply (namex_spec h cwd path true).bind
  intro r
  cases r with
  | none => exact spec_pure rfl
  | some x =>
    obtain ⟨dp, name⟩ := x
    have hdp := h.holds dp
    apply (ilock_spec hdp).bind
    intro _
    apply (dirlookup_spec (by simpa [found] using hdp) name).bind
    intro r
    cases r with
    | some x =>
      obtain ⟨ip, off⟩ := x
      apply (iunlockput_spec dp).bind
      intro _
      refine Spec.start (d + ref ip) ?_ (by simp only [found, Option.elim_some]; abel)
      apply (ilock_spec (h.holds ip)).bind
      intro _
      apply spec_get
      intro s
      split
      · exact spec_pure (add_assoc d _ _)
      · apply (iunlockput_spec ip).bind
        intro _
        exact spec_pure (by simp [created])
    | none =>
      exact (createIn_spec h name type major minor).start _ (add_zero _)

end Specs

end Xv6.Kernel
