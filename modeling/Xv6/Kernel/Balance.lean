import Xv6.Kernel.Holders

namespace Xv6.Kernel
open Lib Fs
open Sys (tDir tFile nOFile oCreate)
set_option autoImplicit true

/-- The files are `t`, and the process holds `d` more than at the start. -/
abbrev KAt (c : Ctx) (d : Key → Int) (t : Files) (s : St) : Prop :=
  s.t = t ∧ At c d s.fs

/-- The log after `n` operations, one after the other. -/
def Ctx.ops (c : Ctx) (n : Nat) : Ctx :=
  { c with trace := c.trace ++ (List.replicate n [LogCall.beginOp, LogCall.endOp]).flatten }

theorem Ctx.ops_zero (c : Ctx) : c.ops 0 = c := by
  rw [ops, List.replicate_zero, List.flatten_nil, List.append_nil]

theorem Ctx.ops_ops (c : Ctx) (m n : Nat) : (c.ops m).ops n = c.ops (m + n) := by
  simp only [ops, List.append_assoc, ← List.flatten_append, List.replicate_append_replicate]

namespace Files

def filealloc (t : Files) : Files :=
  t.freeFile.elim t fun f => t.setFile f { t.file f with ref := 1 }

def fdalloc (t : Files) (p : Proc) (f : FileId) : Files :=
  (t.freeFd p).elim t fun fd => t.setFd (p, fd) (some f)

def filedup (t : Files) (f : FileId) : Files :=
  t.setFile f { t.file f with ref := (t.file f).ref + 1 }

/-- `fileclose` of the last reference, for the files. -/
def closeLast (t : Files) (f : FileId) : Files :=
  let t' := t.setFile f { t.file f with ref := 0, type := .none }
  if (t.file f).type = .pipe then t'.pipeclose (t.file f).pipe (t.file f).writable else t'

def fileclose (t : Files) (f : FileId) : Files :=
  if 0 < (t.file f).ref - 1 then t.setFile f { t.file f with ref := (t.file f).ref - 1 }
  else t.closeLast f

def closeOps (t : Files) (f : FileId) : Nat :=
  if 0 < (t.file f).ref - 1 then 0 else if (t.file f).type = .inode then 1 else 0

def Idle (t : Files) : Prop :=
  ∀ f, (t.file f).ref = 0 → (t.file f).type = .none

end Files

theorem held_pipeclose (t : Files) (q : Nat) (w : Bool) : (t.pipeclose q w).held = t.held := by
  have hend : (t.closeEnd q w).held = t.held := by
    cases w <;> rfl
  simp only [Files.pipeclose]
  split
  · exact hend
  · exact hend

theorem held_closeLast (t : Files) (f : FileId) :
    (t.closeLast f).held = t.held - (t.file f).held := by
  have hset : (t.setFile f { t.file f with ref := 0, type := .none }).held
      = t.held - (t.file f).held := by
    rw [held_setFile]
    exact add_zero _
  simp only [Files.closeLast]
  split
  · rw [held_pipeclose, hset]
  · exact hset

theorem held_drop (t : Files) (f : FileId) (h : 0 < (t.file f).ref - 1) :
    (t.setFile f { t.file f with ref := (t.file f).ref - 1 }).held = t.held := by
  have hpos : 0 < (t.file f).ref := by omega
  rw [held_setFile]
  simp only [File.held, h, hpos, sub_add_cancel]

theorem held_filedup (t : Files) (f : FileId) (h : 1 ≤ (t.file f).ref) :
    (t.filedup f).held = t.held := by
  have hpos : 0 < (t.file f).ref := by omega
  have hpos' : 0 < (t.file f).ref + 1 := by omega
  rw [Files.filedup, held_setFile]
  simp only [File.held, hpos, hpos', sub_add_cancel]

theorem freeFile_ref {t : Files} (h : t.freeFile = some f) : (t.file f).ref = 0 := by
  simpa using List.find?_some h

theorem freeFd_none {t : Files} (h : t.freeFd p = some fd) : t.ofile (p, fd) = none := by
  simpa using List.find?_some h

theorem File.held_of_ref (x : File) (h : x.ref = 0) : x.held = 0 := by
  simp [held, h]

theorem File.held_of_type (x : File) (h : x.type ≠ .inode) : x.held = 0 := by
  simp [held, h]

theorem held_filealloc (t : Files) (h : t.Idle) : t.filealloc.held = t.held := by
  rw [Files.filealloc]
  cases hf : t.freeFile with
  | none => rfl
  | some f =>
    have hr := freeFile_ref hf
    have ht := h f hr
    show (t.setFile f _).held = _
    rw [held_setFile, File.held_of_ref _ hr, File.held_of_type _ (by simp [ht])]
    rw [sub_zero, add_zero]

theorem filealloc_none {t : Files} (hf : t.freeFile = none) : t.filealloc = t := by
  rw [Files.filealloc, hf]
  rfl

theorem fdalloc_none {t : Files} (hfd : t.freeFd p = none) : t.fdalloc p f = t := by
  rw [Files.fdalloc, hfd]
  rfl

theorem freeFd_filealloc (t : Files) (p : Proc) : t.filealloc.freeFd p = t.freeFd p := by
  rw [Files.filealloc]
  cases t.freeFile <;> rfl

theorem filealloc_file {t : Files} (hf : t.freeFile = some f) :
    t.filealloc = t.setFile f { t.file f with ref := 1 } := by
  rw [Files.filealloc, hf]
  rfl

@[simp] theorem setFile_file (t : Files) (f : FileId) (x : File) : (t.setFile f x).file f = x := by
  simp [Files.setFile]

theorem setFile_of_ne (t : Files) (x : File) (h : g ≠ f) : (t.setFile f x).file g = t.file g := by
  simp [Files.setFile, h]

@[simp] theorem setFile_setFile (t : Files) (f : FileId) (x y : File) :
    (t.setFile f x).setFile f y = t.setFile f y := by
  simp [Files.setFile]

@[simp] theorem setFile_self (t : Files) (f : FileId) : t.setFile f (t.file f) = t := by
  simp [Files.setFile]

theorem filealloc_ref {t : Files} (hf : t.freeFile = some f) : (t.filealloc.file f).ref = 1 := by
  rw [filealloc_file hf, setFile_file]

theorem closeOps_filealloc {t : Files} (h : t.Idle) (hf : t.freeFile = some f) :
    t.filealloc.closeOps f = 0 := by
  simp [Files.closeOps, filealloc_file hf, h f (freeFile_ref hf)]

theorem fileclose_filealloc {t : Files} (h : t.Idle) (hf : t.freeFile = some f) :
    t.filealloc.fileclose f = t := by
  have href := freeFile_ref hf
  have htype := h f href
  have hfile : { t.file f with ref := 0, type := .none } = t.file f := by
    ext <;> simp [href, htype]
  simp [Files.fileclose, Files.closeLast, filealloc_file hf, htype, hfile]

/-- The files once `fd` of process `p` is a new file for inode `ip`. -/
def Files.opened (t : Files) (p : Proc) (f : FileId) (fd : Fin nOFile) (ip : Slot)
    (omode : Nat) : Files :=
  (t.setFd (p, fd) (some f)).setFile f ({ t.file f with ref := 1 }.opened ip omode)

theorem opened_eq {t : Files} (hf : t.freeFile = some f) (hfd : t.freeFd p = some fd) :
    (t.filealloc.fdalloc p f).setFile f
      (((t.filealloc.fdalloc p f).file f).opened ip omode) = t.opened p f fd ip omode := by
  rw [Files.fdalloc, freeFd_filealloc, hfd, filealloc_file hf]
  simp [Files.setFd, Files.setFile, Files.opened]

theorem held_opened {t : Files} (hf : t.freeFile = some f) :
    (t.opened p f fd ip omode).held = t.held + ref ip := by
  rw [Files.opened, held_setFile, held_setFd]
  show t.held - (t.file f).held + _ = _
  rw [File.held_of_ref _ (freeFile_ref hf), sub_zero]
  simp [File.held, File.opened]

section Rules
variable {c : Ctx} {d : Key → Int} {t : Files} {E : Fault → Prop}

theorem fs_triple {P : FsState → Prop} {m : FsM α} {Q : α → FsState → Prop}
    (h : Triple P m Q E) :
    Triple (fun s => s.t = t ∧ P s.fs) (fs m) (fun a s => s.t = t ∧ Q a s.fs) E := by
  rintro s ⟨ht, hs⟩
  have hend := h s.fs hs
  show Ends _ _ (fs m s)
  rw [fs]
  cases hr : m.run s.fs with
  | error e =>
    rw [hr] at hend
    exact hend
  | ok x =>
    rw [hr] at hend
    exact ⟨ht, hend⟩

theorem edit_spec (f : Files → Files) :
    Triple (KAt c d t) (edit f) (fun _ => KAt c d (f t)) E :=
  Triple.modify fun _ hs => ⟨congrArg f hs.1, hs.2⟩

theorem kget {k : St → KernelM α} {R : α → St → Prop}
    (h : ∀ s, s.t = t → Triple (KAt c d t) (k s) R E) : Triple (KAt c d t) (get >>= k) R E :=
  Triple.get fun s hs => (h s hs.1).conseq (fun _ hs' => hs' ▸ hs) fun _ _ hs' => hs'

theorem filealloc_spec :
    Triple (KAt c d t) filealloc (fun r s => KAt c d t.filealloc s ∧ r = t.freeFile) E := by
  apply kget
  rintro s rfl
  cases hf : s.t.freeFile with
  | none =>
    rw [Files.filealloc, hf]
    exact Triple.pure fun _ hs => ⟨hs, rfl⟩
  | some f =>
    rw [Files.filealloc, hf]
    apply (edit_spec _).bind
    intro _
    exact Triple.pure fun _ hs => ⟨hs, rfl⟩

theorem fdalloc_spec (p : Proc) (f : FileId) :
    Triple (KAt c d t) (fdalloc p f)
      (fun r s => KAt c d (t.fdalloc p f) s ∧ r = t.freeFd p) E := by
  apply kget
  rintro s rfl
  cases hf : s.t.freeFd p with
  | none =>
    rw [Files.fdalloc, hf]
    exact Triple.pure fun _ hs => ⟨hs, rfl⟩
  | some fd =>
    rw [Files.fdalloc, hf]
    apply (edit_spec _).bind
    intro _
    exact Triple.pure fun _ hs => ⟨hs, rfl⟩

theorem filedup_spec (h : 1 ≤ (t.file f).ref) :
    Triple (KAt c d t) (filedup f) (fun _ => KAt c d (t.filedup f)) E := by
  apply kget
  rintro s rfl
  rw [if_neg (by omega)]
  exact edit_spec _

theorem fs_after {m : FsM α} {k : α → KernelM β} {R : β → St → Prop} {mid : α → Key → Int}
    (hm : Spec c.begun d m mid) (hk : ∀ a, Triple (KAt c.begun (mid a) t) (k a) R (Fine c)) :
    Triple (KAt c.begun d t) (fs m >>= k) R (Fine c) :=
  Triple.bind (fs_triple (E := Fine c) hm) hk

theorem fs_beginOp {k : PUnit → KernelM α} {R : α → St → Prop}
    (hk : ∀ a, Triple (KAt c.begun d t) (k a) R (Fine c)) :
    Triple (KAt c d t) (fs beginOp >>= k) R (Fine c) :=
  Triple.bind (fs_triple beginOp_spec) hk

theorem fs_endOp : Triple (KAt c.begun d t) (fs endOp) (fun _ => KAt c.op d t) (Fine c) :=
  fs_triple endOp_closes

theorem closeLast_spec (f : FileId) :
    Triple (KAt c d (t.setFile f { t.file f with ref := 0, type := .none }))
      (closeLast (t.file f))
      (fun _ => KAt (c.ops (if (t.file f).type = .inode then 1 else 0))
        (d - if (t.file f).type = .inode then ref (t.file f).ip else 0) (t.closeLast f))
      (Fine c) := by
  rw [closeLast, Files.closeLast]
  cases (t.file f).type with
  | none =>
    apply Triple.pure
    intro s hs
    simpa [Ctx.ops_zero] using hs
  | pipe =>
    simpa [Ctx.ops_zero] using edit_spec _
  | inode =>
    apply fs_beginOp
    intro _
    apply fs_after (iput_spec (t.file f).ip)
    intro _
    exact fs_endOp

/-- `fileclose` gives up what the file holds with its last reference. -/
theorem fileclose_spec (h : 1 ≤ (t.file f).ref) :
    Triple (KAt c (t.held + x) t) (fileclose f)
      (fun _ => KAt (c.ops (t.closeOps f)) ((t.fileclose f).held + x) (t.fileclose f))
      (Fine c) := by
  apply kget
  rintro s rfl
  rw [if_neg (by omega)]
  simp only [Files.closeOps, Files.fileclose]
  split
  · next hpos =>
    rw [held_drop _ _ hpos, Ctx.ops_zero]
    exact edit_spec _
  · next hlast =>
    have hpos : 0 < (s.t.file f).ref := by omega
    apply (edit_spec _).bind
    intro _
    rw [held_closeLast, File.held, sub_add_eq_add_sub]
    simpa only [hpos, true_and] using closeLast_spec f

theorem giveUp_spec (ip : Slot) :
    Triple (KAt c.begun (d + ref ip + lock ip) t) (giveUp ip)
      (fun r s => KAt c.op d t s ∧ r = -1) (Fine c) := by
  apply fs_after (iunlockput_spec ip)
  intro _
  apply fs_endOp.bind
  intro _
  rw [put_locked]
  exact Triple.pure fun _ hs => ⟨hs, rfl⟩

inductive Opens (p : Proc) (omode : Nat) (t : Files) : Int → Files → Prop
  | failed : Opens p omode t (-1) t
  | opened (ip : Slot) (hf : t.freeFile = some f) (hfd : t.freeFd p = some fd) :
      Opens p omode t fd.val (t.opened p f fd ip omode)

/-- Between calls a process gained and lost the references that the files did. -/
def Settled (c : Ctx) (R : α → Files → Prop) (a : α) (s : St) : Prop :=
  ∃ n, At (c.ops n) s.t.held s.fs ∧ R a s.t

theorem settled_op {R : α → Files → Prop} (hs : KAt c.op t.held t s) (hR : R a t) :
    Settled c R a s := by
  obtain ⟨rfl, hs⟩ := hs
  exact ⟨1, hs, hR⟩

theorem giveUp_settled {R : Int → Files → Prop} (ip : Slot) (hR : R (-1) t) :
    Triple (KAt c.begun (t.held + ref ip + lock ip) t) (giveUp ip) (Settled c R) (Fine c) := by
  apply (giveUp_spec ip).conseq (fun _ hs => hs)
  rintro _ s ⟨hs, rfl⟩
  exact settled_op hs hR

theorem openFile_spec (h : t.Idle) (p : Proc) (ip : Slot) (omode : Nat) :
    Triple (KAt c.begun (t.held + ref ip + lock ip) t) (openFile p ip omode)
      (Settled c (Opens p omode t)) (Fine c) := by
  apply filealloc_spec.bind
  intro r
  apply Triple.known
  rintro rfl
  have hheld := held_filealloc t h
  cases hf : t.freeFile with
  | none =>
    rw [filealloc_none hf]
    exact giveUp_settled ip .failed
  | some f =>
    apply (fdalloc_spec p f).bind
    intro r
    apply Triple.known
    intro hr
    rw [freeFd_filealloc] at hr
    subst hr
    cases hfd : t.freeFd p with
    | none =>
      rw [fdalloc_none (by rw [freeFd_filealloc, hfd])]
      have href := filealloc_ref hf
      have hback := fileclose_filealloc h hf
      have hclose := fileclose_spec (c := c.begun) (x := ref ip + lock ip) href.ge
      rw [closeOps_filealloc h hf, Ctx.ops_zero, hheld, ← add_assoc, hback] at hclose
      apply hclose.bind (E := Fine c)
      intro _
      rw [← add_assoc]
      exact giveUp_settled ip .failed
    | some fd =>
      apply fs_after (iunlock_spec ip)
      intro _
      apply fs_endOp.bind
      intro _
      apply (edit_spec _).bind
      intro _
      rw [opened_eq hf hfd, add_sub_cancel_right, ← held_opened hf]
      apply Triple.pure
      intro s hs
      exact settled_op hs (.opened ip hf hfd)

theorem failOp_spec {R : Int → Files → Prop} (hd : d = t.held) (hR : R (-1) t) :
    Triple (KAt c.begun d t) (fs endOp >>= fun _ => pure (-1)) (Settled c R) (Fine c) := by
  subst hd
  apply fs_endOp.bind
  intro _
  apply Triple.pure
  intro s hs
  exact settled_op hs hR

theorem sysOpen_spec (h : t.Idle) (p : Proc) (cwd : Slot) (path : Option (List UInt8))
    (omode : Nat) :
    Triple (KAt c t.held t) (sysOpen p cwd path omode) (Settled c (Opens p omode t))
      (Fine c) := by
  cases path with
  | none =>
    apply Triple.pure
    rintro s ⟨rfl, hs⟩
    exact ⟨0, c.ops_zero.symm ▸ hs, .failed⟩
  | some path =>
    apply fs_beginOp
    intro _
    split
    · apply fs_after (create_spec (solvent_held t) cwd path tFile 0 0)
      intro r
      cases r with
      | none => exact failOp_spec (add_zero _) .failed
      | some ip =>
        show Triple (KAt c.begun (t.held + (ref ip + lock ip)) t) _ _ _
        rw [← add_assoc]
        exact openFile_spec h p ip omode
    · apply fs_after (namex_spec (solvent_held t) cwd path false)
      intro r
      cases r with
      | none => exact failOp_spec (add_zero _) .failed
      | some x =>
        obtain ⟨ip, name⟩ := x
        apply fs_after (ilock_spec ((solvent_held t).holds ip))
        intro _
        apply kget
        intro s _
        split
        · exact giveUp_settled ip .failed
        · exact openFile_spec h p ip omode

inductive Closed (p : Proc) (n : Int) (t : Files) : Int → Files → Prop
  | failed : Closed p n t (-1) t
  | closed (h : t.argfd p n = some (fd, f)) :
      Closed p n t 0 ((t.setFd (p, fd) none).fileclose f)

theorem sysClose_spec (p : Proc) (n : Int)
    (h : ∀ fd f, t.argfd p n = some (fd, f) → 1 ≤ (t.file f).ref) :
    Triple (KAt c t.held t) (sysClose p n) (Settled c (Closed p n t)) (Fine c) := by
  apply kget
  rintro s rfl
  cases ha : s.t.argfd p n with
  | none =>
    apply Triple.pure
    rintro s' ⟨ht, hs⟩
    rw [← ht]
    exact ⟨0, c.ops_zero.symm ▸ ht ▸ hs, .failed⟩
  | some x =>
    obtain ⟨fd, f⟩ := x
    have hclose := fileclose_spec (c := c) (x := 0) (t := s.t.setFd (p, fd) none) (h fd f ha)
    rw [held_setFd, add_zero, add_zero] at hclose
    apply (edit_spec _).bind
    intro _
    apply hclose.bind
    intro _
    apply Triple.pure
    rintro s' ⟨ht, hs⟩
    refine ⟨_, ht ▸ hs, ?_⟩
    rw [ht]
    exact .closed ha

inductive Moves (p : Proc) (t : Files) : Int → Files → Prop
  | failed : Moves p t (-1) t
  | moved (ip : Slot) : Moves p t 0 (t.setCwd p (some ip))

theorem sysChdir_spec (h : t.cwd p = some cwd) (path : Option (List UInt8)) :
    Triple (KAt c t.held t) (sysChdir p cwd path) (Settled c (Moves p t)) (Fine c) := by
  apply fs_beginOp
  intro _
  cases path with
  | none => exact failOp_spec rfl .failed
  | some path =>
    apply fs_after (namex_spec (solvent_held t) cwd path false)
    intro r
    cases r with
    | none => exact failOp_spec (add_zero _) .failed
    | some x =>
      obtain ⟨ip, name⟩ := x
      apply fs_after (ilock_spec ((solvent_held t).holds ip))
      intro _
      apply kget
      intro s _
      split
      · have hheld : t.held + ref ip + lock ip - lock ip - ref cwd
            = (t.setCwd p (some ip)).held := by
          rw [held_setCwd, h, add_sub_cancel_right, add_sub_right_comm]
          rfl
        apply fs_after (iunlock_spec ip)
        intro _
        apply fs_after (iput_spec cwd)
        intro _
        apply fs_endOp.bind
        intro _
        apply (edit_spec _).bind
        intro _
        apply Triple.pure
        intro s' hs
        rw [hheld] at hs
        exact settled_op hs (.moved ip)
      · exact giveUp_settled ip .failed

theorem fs_settled {m : FsM α} {R : α → Files → Prop}
    (h : Triple (At c t.held) m (fun _ => Done c t.held) (Fine c)) (hR : ∀ a, R a t) :
    Triple (KAt c t.held t) (fs m) (Settled c R) (Fine c) := by
  apply (fs_triple h).conseq (fun _ hs => hs)
  rintro a s ⟨rfl, hs | hs⟩
  · exact ⟨0, c.ops_zero.symm ▸ hs, hR a⟩
  · exact ⟨1, hs, hR a⟩

theorem done_of_op {m : FsM α} (h : Triple (At c d) m (fun _ => At c.op d) (Fine c)) :
    Triple (At c d) m (fun _ => Done c d) (Fine c) :=
  h.conseq (fun _ hs => hs) fun _ _ hs => .inr hs

end Rules

/-- The calls on the file system that do not share or pass on a file. -/
def Call.usesFs : Call → Bool
  | .open_ .. | .mkdir _ | .mknod .. | .link _ | .unlink _ | .chdir _ | .close _ | .exec .. => true
  | .dup _ | .pipe .. | .fork .. | .exit => false

def Changes (p : Proc) (t : Files) : Call → Int → Files → Prop
  | .open_ _ omode => Opens p omode t
  | .close n => Closed p n t
  | .chdir _ => Moves p t
  | _ => fun _ t' => t' = t

def St.ctx (s : St) : Ctx :=
  ⟨s.fs.res - s.t.held, s.fs.outstanding, s.fs.trace⟩

theorem at_ctx (s : St) : KAt s.ctx s.t.held s.t s :=
  ⟨rfl, (sub_add_cancel _ _).symm, rfl, rfl⟩

theorem call_spec {t : Files} (h : t.Idle) (hcwd : t.cwd p = some cwd) (e : Call)
    (he : e.usesFs = true)
    (hclose : ∀ n fd f, e = .close n → t.argfd p n = some (fd, f) → 1 ≤ (t.file f).ref) :
    Triple (KAt c t.held t) (call p cwd e) (Settled c (Changes p t e)) (Fine c) := by
  have hsolvent := solvent_held t
  cases e with
  | open_ path omode => exact sysOpen_spec h p cwd path omode
  | mkdir path => exact fs_settled (done_of_op (sysMake_spec hsolvent cwd path _ _ _)) fun _ => rfl
  | mknod path major minor =>
    exact fs_settled (done_of_op (sysMake_spec hsolvent cwd path _ _ _)) fun _ => rfl
  | link args => exact fs_settled (sysLink_spec hsolvent cwd args) fun _ => rfl
  | unlink path => exact fs_settled (sysUnlink_spec hsolvent cwd path) fun _ => rfl
  | chdir path => exact sysChdir_spec hcwd path
  | close n => exact sysClose_spec p n fun fd f => hclose n fd f rfl
  | exec path vm => exact fs_settled (done_of_op (exec_spec hsolvent cwd path vm)) fun _ => rfl
  | dup n => cases he
  | pipe fds page => cases he
  | fork child copied => cases he
  | exit => cases he

section Balance
variable {s s' : St}

theorem balance_of_at (h : At (s.ctx.ops n) s'.t.held s'.fs) :
    s'.fs.bufs.Perm s.fs.bufs ∧ s'.fs.locked = s.fs.locked ∧
      ∀ i, s'.fs.ref i - s.fs.ref i = (s'.t.refs i : Int) - s.t.refs i := by
  have hres : ∀ k, s'.fs.res k = s.fs.res k - s.t.held k + s'.t.held k := congrFun h.res
  refine ⟨?_, ?_, ?_⟩
  · rw [List.perm_iff_count]
    intro b
    have hb := hres (.buf b)
    rw [held_of_ne _ (by simp), held_of_ne _ (by simp)] at hb
    simpa [FsState.res] using hb
  · funext i
    have hi := hres (.lock i)
    rw [held_of_ne _ (by simp), held_of_ne _ (by simp)] at hi
    revert hi
    simp only [FsState.res]
    cases s'.fs.locked i <;> cases s.fs.locked i <;> simp
  · intro i
    have hi := hres (.ref i)
    rw [held_ref, held_ref] at hi
    simp only [FsState.res] at hi
    omega

/-- `close` of a file whose count is already zero does not return. -/
theorem sysClose_stops (ha : s.t.argfd p n = some (fd, f)) (hf : (s.t.file f).ref < 1) :
    Triple (· = s) (sysClose p n) (fun _ _ => False) fun _ => True := by
  apply Triple.get
  intro s₁ hs₁
  rw [hs₁, ha]
  have hfile : Triple (· = s) (edit fun t => t.setFd (p, fd) none)
      (fun _ s' => s'.t.file f = s.t.file f) fun _ => True :=
    Triple.modify fun _ hs => hs ▸ rfl
  apply hfile.bind
  intro _
  apply Triple.bind (Q := fun _ _ => False)
  · apply Triple.get
    intro s' hs
    rw [hs, if_pos hf]
    exact Triple.throw trivial
  · intro _
    exact Triple.pure fun _ h => h

/-- Every call pairs each `begin_op` with an `end_op`, gives back its buffers and locks, and keeps
the references that its result accounts for. -/
theorem call_balanced (hidle : s.t.Idle) (hcwd : s.t.cwd p = some cwd) (he : e.usesFs = true)
    (hr : (call p cwd e).run s = .ok (r, s')) :
    s'.fs.outstanding = s.fs.outstanding ∧
      (∃ n, s'.fs.trace
        = s.fs.trace ++ (List.replicate n [LogCall.beginOp, LogCall.endOp]).flatten) ∧
      s'.fs.bufs.Perm s.fs.bufs ∧ s'.fs.locked = s.fs.locked ∧ Changes p s.t e r s'.t ∧
      ∀ i, s'.fs.ref i - s.fs.ref i = (s'.t.refs i : Int) - s.t.refs i := by
  have hclose : ∀ n fd f, e = .close n → s.t.argfd p n = some (fd, f) →
      1 ≤ (s.t.file f).ref := by
    rintro n fd f rfl ha
    by_contra hf
    exact (sysClose_stops ha (by omega)).ok rfl hr
  obtain ⟨n, hat, hchange⟩ := (call_spec hidle hcwd e he hclose).ok (at_ctx s) hr
  obtain ⟨hbufs, hlocked, href⟩ := balance_of_at hat
  exact ⟨hat.outstanding, ⟨n, hat.trace⟩, hbufs, hlocked, hchange, href⟩

end Balance

def emptyRoot : FsState where
  sb := ⟨1000, 941, 200, 32, 58⟩
  area := ⟨2, 30⟩
  blocks _ := fun _ => 0
  bufs := []
  lh := []
  outstanding := 0
  committing := false
  inum _ := 1
  ref _ := 0
  locked _ := false
  valid _ := true
  ip _ := ⟨tDir, 0, 0, 1, 0, fun _ => 0⟩
  console := []
  trace := []

theorem call_balanced_open :
    ∃ s', (call 0 0 (.open_ (some [47]) 0)).run (boot emptyRoot 0 0) = .ok (0, s') ∧
      s'.fs.outstanding = 0 ∧ s'.fs.bufs = [] ∧ s'.fs.ref 0 = 2 := by
  have hrun : ((call 0 0 (.open_ (some [47]) 0)).run (boot emptyRoot 0 0)).toOption.any
      (fun x => x.1 = 0 ∧ x.2.t.refs 0 = 2) = true := by
    decide +kernel
  obtain ⟨⟨r, s'⟩, hx, hs⟩ := (Option.any_eq_true _ _).1 hrun
  obtain ⟨rfl, hrefs⟩ := of_decide_eq_true hs
  have hok := ok_of_toOption hx
  obtain ⟨hout, -, hbufs, -, -, href⟩ :=
    call_balanced (s := boot emptyRoot 0 0) (fun _ _ => rfl) rfl rfl hok
  refine ⟨s', hok, hout, hbufs.eq_nil, ?_⟩
  have h0 := href 0
  rw [show s'.t.refs 0 = 2 from hrefs, show (boot emptyRoot 0 0).t.refs 0 = 1 by decide +kernel,
    show (boot emptyRoot 0 0).fs.ref 0 = 1 from rfl] at h0
  omega

end Xv6.Kernel
