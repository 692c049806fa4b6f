import Xv6.Kernel.OpenFiles

namespace Xv6.Kernel
open Lib Fs Function
open Sys (nOFile)
set_option autoImplicit true

/-- Only descriptors of process `p` differ. -/
structure SameBut (p : Proc) (t t' : Files) : Prop where
  ofile : ∀ x, x.1 ≠ p → t'.ofile x = t.ofile x
  cwd : t'.cwd = t.cwd

/-- A process that has no current directory has no files. -/
def Files.Dead (t : Files) : Prop :=
  ∀ p, t.cwd p = none → ∀ fd, t.ofile (p, fd) = none

structure FilesOk (t : Files) : Prop extends Consistent 0 t where
  dead : t.Dead

section Specs
variable {c : Ctx} {t t' : Files} {e e' : FileId → Int} {p : Proc}

theorem SameBut.refl (p : Proc) (t : Files) : SameBut p t t :=
  ⟨fun _ _ => rfl, rfl⟩

theorem SameBut.trans (h : SameBut p t t') (h' : SameBut p t' t'') : SameBut p t t'' :=
  ⟨fun x hx => (h'.ofile x hx).trans (h.ofile x hx), h'.cwd.trans h.cwd⟩

theorem SameBut.setFd (h : SameBut p t t') : SameBut p t (t'.setFd (p, fd) o) := by
  refine ⟨fun x hx => ?_, h.cwd⟩
  have hne : x ≠ (p, fd) := by
    rintro rfl
    exact hx rfl
  exact (update_of_ne hne _ _).trans (h.ofile x hx)

theorem SameBut.fileclose (h : SameBut p t t') : SameBut p t (t'.fileclose f) :=
  ⟨fun x hx => (congrFun (fileclose_ofile t' f) x).trans (h.ofile x hx),
    (fileclose_cwd t' f).trans h.cwd⟩

theorem SameBut.setFile (h : SameBut p t t') : SameBut p t (t'.setFile f x) :=
  ⟨h.ofile, h.cwd⟩

theorem Files.Dead.of_same (h : t.Dead) (hs : SameBut p t t') (hp : t.cwd p = some i) :
    t'.Dead := by
  intro r hr fd
  rw [hs.cwd] at hr
  have hne : r ≠ p := by
    rintro rfl
    rw [hp] at hr
    cases hr
  rw [hs.ofile (r, fd) hne]
  exact h r hr fd

theorem Files.Dead.setCwd (h : t.Dead) (hs : SameBut p t t')
    (hp : o = none → ∀ fd, t'.ofile (p, fd) = none) : (t'.setCwd p o).Dead := by
  intro r hr fd
  by_cases hrp : r = p
  · subst hrp
    simp only [Files.setCwd, update_self] at hr
    exact hp hr fd
  · simp only [Files.setCwd, update_of_ne hrp, hs.cwd] at hr
    exact (hs.ofile (r, fd) hrp).trans (h r hr fd)

theorem Consistent.congr (h : Consistent e t) (he : e = e') : Consistent e' t :=
  he ▸ h

theorem argfd_ofile (h : t.argfd p n = some (fd, f)) : t.ofile (p, fd) = some f := by
  rw [Files.argfd] at h
  split at h
  · obtain ⟨g, hg, hx⟩ := Option.map_eq_some_iff.1 h
    obtain ⟨rfl, rfl⟩ := Prod.mk.inj hx
    exact hg
  · cases h

theorem fdalloc_some (h : t.freeFd p = some fd) : t.fdalloc p f = t.setFd (p, fd) (some f) := by
  rw [Files.fdalloc, h]
  rfl

theorem Consistent.fdalloc (h : Consistent e t) (hfd : t.freeFd p = some fd) :
    Consistent (e - hand f) (t.fdalloc p f) := by
  have hset := h.setFd (p, fd) (some f)
  rw [freeFd_none hfd] at hset
  rw [fdalloc_some hfd]
  apply hset.congr
  funext g
  simp [pointer, hand]

theorem held_fdalloc (t : Files) (p : Proc) (f : FileId) : (t.fdalloc p f).held = t.held := by
  rw [Files.fdalloc]
  cases t.freeFd p <;> rfl

theorem settled_ops {R : α → Files → Prop} (hs : KAt (c.ops n) t.held t s) (hR : R a t) :
    Settled c R a s := by
  obtain ⟨rfl, hs⟩ := hs
  exact ⟨n, hs, hR⟩

theorem settled_now {R : α → Files → Prop} (hs : KAt c t.held t s) (hR : R a t) :
    Settled c R a s :=
  settled_ops (n := 0) (c.ops_zero.symm ▸ hs) hR

theorem fileclose_settles (h : 1 ≤ (t.file f).ref) :
    Triple (KAt c t.held t) (fileclose f)
      (fun _ => KAt (c.ops (t.closeOps f)) (t.fileclose f).held (t.fileclose f)) (Fine c) := by
  have hclose := fileclose_spec (c := c) (x := 0) h
  rwa [add_zero, add_zero] at hclose

def Keeps (p : Proc) (t : Files) (_ : Int) (t' : Files) : Prop :=
  Consistent 0 t' ∧ SameBut p t t'

theorem sysDup_spec (h : Consistent 0 t) (n : Int) :
    Triple (KAt c t.held t) (sysDup p n) (Settled c (Keeps p t)) (Fine c) := by
  apply kget
  rintro s rfl
  cases ha : s.t.argfd p n with
  | none => exact Triple.pure fun _ hs => settled_now hs ⟨h, .refl p _⟩
  | some x =>
    obtain ⟨fd₀, f⟩ := x
    have href := h.ref_pos (argfd_ofile ha)
    apply (fdalloc_spec p f).bind
    intro r
    apply Triple.known
    rintro rfl
    cases hfd : s.t.freeFd p with
    | none =>
      rw [fdalloc_none hfd]
      exact Triple.pure fun _ hs => settled_now hs ⟨h, .refl p _⟩
    | some fd =>
      have hset := h.fdalloc (f := f) hfd
      have hfile : ((s.t.fdalloc p f).file f).ref = (s.t.file f).ref := by
        rw [fdalloc_some hfd]
        rfl
      rw [← hfile] at href
      have hdup := (hset.filedup href).congr (sub_add_cancel 0 (hand f))
      apply (filedup_spec href).bind
      intro _
      apply Triple.pure
      intro s' hs
      rw [← held_fdalloc _ p f, ← held_filedup _ _ href] at hs
      refine settled_now hs ⟨hdup, ?_⟩
      rw [fdalloc_some hfd]
      exact (SameBut.refl p _).setFd.setFile

theorem Settled.bind {P : St → Prop} {m : KernelM α} {k : α → KernelM β} {R : α → Files → Prop}
    {R' : β → Files → Prop} (hm : Triple P m (Settled c R) (Fine c))
    (hk : ∀ a t n, R a t →
      Triple (KAt (c.ops n) t.held t) (k a) (Settled (c.ops n) R') (Fine c)) :
    Triple P (m >>= k) (Settled c R') (Fine c) := by
  apply hm.bind
  intro a s hs
  obtain ⟨n, hat, hR⟩ := hs
  have hend := hk a s.t n hR s ⟨rfl, hat⟩
  cases hr : (k a).run s with
  | error e =>
    rw [hr] at hend
    exact hend
  | ok x =>
    rw [hr] at hend
    obtain ⟨m, hat', hR'⟩ := hend
    exact ⟨n + m, c.ops_ops n m ▸ hat', hR'⟩

theorem fileclose_settled (h : 1 ≤ (t.file f).ref) :
    Triple (KAt c t.held t) (fileclose f) (Settled c fun _ t' => t' = t.fileclose f) (Fine c) :=
  (fileclose_settles h).conseq (fun _ hs => hs) fun _ _ hs => settled_ops hs rfl

theorem hand_nonneg (f g : FileId) : 0 ≤ hand f g := by
  rw [hand_eq]
  split <;> decide

theorem Consistent.ref_of_hand (h : Consistent e t) (he : 1 ≤ e f) : 1 ≤ (t.file f).ref := by
  have htally := h.tally f
  omega

theorem closeBoth_spec {R : α → Files → Prop} (h : Consistent (hand f + hand g) t)
    (hR : ∀ t', Consistent 0 t' → (∀ p t₀, SameBut p t₀ t → SameBut p t₀ t') → R a t') :
    Triple (KAt c t.held t) (do fileclose f; fileclose g; pure a) (Settled c R) (Fine c) := by
  have hf : 1 ≤ (hand f + hand g) f := by
    have hg := hand_nonneg g f
    rw [Pi.add_apply, hand_self]
    omega
  apply Settled.bind (fileclose_settled (h.ref_of_hand hf))
  rintro _ t₁ n rfl
  have h₁ := (h.fileclose (h.ref_of_hand hf)).congr (add_sub_cancel_left _ _)
  have hg := h₁.ref_of_hand (hand_self g).ge
  apply Settled.bind (c := c.ops n) (fileclose_settled hg)
  rintro _ t₂ m rfl
  have h₂ := (h₁.fileclose hg).congr (sub_self _)
  apply Triple.pure
  intro s hs
  exact settled_now hs (hR _ h₂ fun p t₀ hs => hs.fileclose.fileclose)

def inHand (r : Option (FileId × FileId)) : FileId → Int :=
  r.elim 0 fun x => hand x.1 + hand x.2

theorem held_makePipe (h₀ : (t.file f₀).type = .none) (h₁ : (t.file f₁).type = .none)
    (hne : f₀ ≠ f₁) : (t.makePipe q f₀ f₁).held = t.held := by
  simp only [Files.makePipe, held_setFile, setFile_of_ne _ _ hne.symm]
  simp [File.held, h₀, h₁]
  rfl

theorem Consistent.makePipe (h : Consistent e t) (hne : f₀ ≠ f₁) (h₀ : (t.file f₀).ref = 1)
    (h₁ : (t.file f₁).ref = 1) (hn₀ : (t.file f₀).type = .none)
    (hn₁ : (t.file f₁).type = .none) (hq : t.allocated q = t.freed q) :
    Consistent e (t.makePipe q f₀ f₁) := by
  have hpipes := h.toPipesOk.makePipe hne h₀ h₁ hn₀ hn₁ hq
  have hsame : Consistent (e + 0) (t.makePipe q f₀ f₁) := by
    apply h.of_ref hpipes rfl
    intro g
    simp only [Files.makePipe, ref_setFile, setFile_of_ne _ _ hne.symm]
    simp
  exact hsame.congr (add_zero e)

theorem pipealloc_spec (h : Consistent 0 t) (page : Option Nat)
    (hpage : ∀ q, page = some q → t.allocated q = t.freed q) :
    Triple (KAt c t.held t) (pipealloc page)
      (Settled c fun r t' => Consistent (inHand r) t' ∧ SameBut p t t') (Fine c) := by
  apply filealloc_spec.bind
  intro r
  apply Triple.known
  rintro rfl
  cases hf₀ : t.freeFile with
  | none =>
    rw [filealloc_none hf₀]
    exact Triple.pure fun _ hs => settled_now hs ⟨h, .refl p t⟩
  | some f₀ =>
    have h₁ := (h.filealloc hf₀).congr (zero_add _)
    have href₀ := filealloc_ref hf₀
    rw [← held_filealloc t h.idle]
    apply filealloc_spec.bind
    intro r
    apply Triple.known
    rintro rfl
    cases hf₁ : t.filealloc.freeFile with
    | none =>
      rw [filealloc_none hf₁]
      apply Settled.bind (fileclose_settled href₀.ge)
      rintro _ t' n rfl
      rw [fileclose_filealloc h.idle hf₀]
      exact Triple.pure fun _ hs => settled_now hs ⟨h, .refl p t⟩
    | some f₁ =>
      have h₂ := h₁.filealloc hf₁
      have hsame : SameBut p t t.filealloc.filealloc := by
        rw [filealloc_file hf₁, filealloc_file hf₀]
        exact (SameBut.refl p t).setFile.setFile
      rw [← held_filealloc _ h₁.idle]
      cases page with
      | none =>
        apply closeBoth_spec h₂
        intro t' ht' hs
        exact ⟨ht', hs p t hsame⟩
      | some q =>
        have hne : f₀ ≠ f₁ := by
          rintro rfl
          have hfree := freeFile_ref hf₁
          omega
        have hfile₀ : t.filealloc.filealloc.file f₀ = t.filealloc.file f₀ := by
          rw [filealloc_file hf₁, setFile_of_ne _ _ hne]
        have hn₀ : (t.filealloc.filealloc.file f₀).type = .none := by
          rw [hfile₀, filealloc_file hf₀, setFile_file]
          exact h.idle f₀ (freeFile_ref hf₀)
        have hn₁ : (t.filealloc.filealloc.file f₁).type = .none := by
          rw [filealloc_file hf₁, setFile_file]
          exact h₁.idle f₁ (freeFile_ref hf₁)
        have hq : t.filealloc.filealloc.allocated q = t.filealloc.filealloc.freed q := by
          rw [filealloc_file hf₁, filealloc_file hf₀]
          exact hpage q rfl
        have h₃ := h₂.makePipe hne (hfile₀ ▸ href₀) (filealloc_ref hf₁) hn₀ hn₁ hq
        apply (edit_spec _).bind
        intro _
        apply Triple.pure
        intro s hs
        rw [← held_makePipe (q := q) hn₀ hn₁ hne] at hs
        exact settled_now hs ⟨h₃, hsame.ofile, hsame.cwd⟩

theorem pipeBad_spec (h : Consistent (hand rf + hand wf) t) (hs : SameBut p t₀ t) :
    Triple (KAt c t.held t) (pipeBad rf wf) (Settled c (Keeps p t₀)) (Fine c) := by
  apply closeBoth_spec h
  intro t' ht' hsame
  exact ⟨ht', hsame p t₀ hs⟩

theorem sysPipe_spec (h : Consistent 0 t) (fds : Bool) (page : Option Nat)
    (hpage : ∀ q, page = some q → t.allocated q = t.freed q) :
    Triple (KAt c t.held t) (sysPipe p fds page) (Settled c (Keeps p t)) (Fine c) := by
  rw [sysPipe]
  split
  · apply Settled.bind (pipealloc_spec (p := p) h page hpage)
    rintro r t₁ n ⟨h₁, hs₁⟩
    cases r with
    | none => exact Triple.pure fun _ hs => settled_now hs ⟨h₁, hs₁⟩
    | some x =>
      obtain ⟨rf, wf⟩ := x
      apply (fdalloc_spec p rf).bind
      intro r
      apply Triple.known
      rintro rfl
      cases hfd₀ : t₁.freeFd p with
      | none =>
        rw [fdalloc_none hfd₀]
        exact pipeBad_spec h₁ hs₁
      | some fd₀ =>
        have h₂ := (h₁.fdalloc (f := rf) hfd₀).congr (add_sub_cancel_left _ _)
        rw [← held_fdalloc t₁ p rf]
        rw [fdalloc_some hfd₀] at h₂ ⊢
        apply (fdalloc_spec p wf).bind
        intro r
        apply Triple.known
        rintro rfl
        cases hfd₁ : (t₁.setFd (p, fd₀) (some rf)).freeFd p with
        | none =>
          have h₃ := h₂.setFd (p, fd₀) none
          rw [fdalloc_none hfd₁]
          apply (edit_spec _).bind
          intro _
          apply pipeBad_spec (h₃.congr ?_) hs₁.setFd.setFd
          funext f
          simp [Files.setFd, pointer, hand, add_comm]
        | some fd₁ =>
          have h₃ := (h₂.fdalloc (f := wf) hfd₁).congr (sub_self _)
          apply Triple.pure
          intro s hs
          rw [← held_fdalloc _ p wf] at hs
          refine settled_now hs ⟨h₃, ?_⟩
          rw [fdalloc_some hfd₁]
          exact hs₁.setFd.setFd
  · exact Triple.pure fun _ hs => settled_now hs ⟨h, .refl p t⟩

theorem dupAll_spec (fds : List (Fin nOFile)) (h : Consistent 0 t)
    (hnodup : fds.Nodup) (hfree : ∀ fd ∈ fds, t.ofile (child, fd) = none) :
    Triple (KAt c t.held t) (dupAll p child fds)
      (Settled c fun _ t' => Consistent 0 t' ∧ SameBut child t t') (Fine c) := by
  induction fds generalizing t with
  | nil => exact Triple.pure fun _ hs => settled_now hs ⟨h, .refl child t⟩
  | cons fd fds ih =>
    obtain ⟨hfd, hnodup⟩ := List.nodup_cons.1 hnodup
    apply kget
    rintro s rfl
    cases hf : s.t.ofile (p, fd) with
    | none => exact ih h hnodup fun fd' hfd' => hfree fd' (List.mem_cons_of_mem fd hfd')
    | some f =>
      have href := h.ref_pos hf
      have hdup := (h.filedup href).setFd (child, fd) (some f)
      have hnone : (s.t.filedup f).ofile (child, fd) = none :=
        hfree fd List.mem_cons_self
      rw [hnone] at hdup
      have h' : Consistent 0 _ := hdup.congr (by
        funext g
        simp [pointer, hand])
      have hfree' : ∀ fd' ∈ fds,
          ((s.t.filedup f).setFd (child, fd) (some f)).ofile (child, fd') = none := by
        intro fd' hfd'
        have hfds : (child, fd') ≠ (child, fd) := by
          rintro hx
          obtain ⟨-, rfl⟩ := Prod.mk.inj hx
          exact hfd hfd'
        exact (update_of_ne hfds _ _).trans
          (hfree fd' (List.mem_cons_of_mem fd hfd'))
      apply (filedup_spec href).bind
      intro _
      rw [← held_filedup _ _ href]
      apply (edit_spec _).bind
      intro _
      apply (ih h' hnodup hfree').conseq (fun _ hs => hs)
      rintro _ s' ⟨n, hs, ht', hsame⟩
      exact ⟨n, hs, ht', ((SameBut.refl child s.t).setFile.setFd).trans hsame⟩

theorem fork_spec (h : FilesOk t) (hchild : ∀ q, child = some q → t.cwd q = none)
    (copied : Bool) :
    Triple (KAt c t.held t) (fork p cwd child copied) (Settled c fun _ => FilesOk) (Fine c) := by
  cases child with
  | none => exact Triple.pure fun _ hs => settled_now hs h
  | some q =>
    have hq := hchild q rfl
    rw [fork]
    split
    · apply Settled.bind (dupAll_spec _ h.toConsistent (List.nodup_finRange _)
        fun fd _ => h.dead q hq fd)
      rintro _ t₁ n ⟨h₁, hsame⟩
      have hheld : t₁.held + ref cwd = (t₁.setCwd q (some cwd)).held := by
        rw [held_setCwd, hsame.cwd, hq]
        exact congrArg (· + ref cwd) (sub_zero _).symm
      have hdead := h.dead.setCwd hsame (o := some cwd) nofun
      apply (fs_triple (E := Fine c) (idup_spec (c := c.ops n) cwd)).bind
      intro _
      apply (edit_spec _).bind
      intro _
      rw [hheld]
      exact Triple.pure fun _ hs => settled_now hs ⟨h₁.setCwd, hdead⟩
    · exact Triple.pure fun _ hs => settled_now hs h

theorem closeAll_spec (fds : List (Fin nOFile)) (h : Consistent 0 t) :
    Triple (KAt c t.held t) (closeAll p fds)
      (Settled c fun _ t' => Consistent 0 t' ∧ SameBut p t t' ∧
        ∀ fd, fd ∈ fds ∨ t.ofile (p, fd) = none → t'.ofile (p, fd) = none) (Fine c) := by
  induction fds generalizing c t with
  | nil =>
    apply Triple.pure
    intro s hs
    refine settled_now hs ⟨h, .refl p t, ?_⟩
    rintro fd (hfd | hfd)
    · cases hfd
    · exact hfd
  | cons fd fds ih =>
    apply kget
    rintro s rfl
    cases hf : s.t.ofile (p, fd) with
    | none =>
      apply (ih h).conseq (fun _ hs => hs)
      rintro _ s' ⟨n, hs, ht', hsame, hnone⟩
      refine ⟨n, hs, ht', hsame, ?_⟩
      rintro fd' (hfd' | hfd')
      · rcases List.mem_cons.1 hfd' with rfl | hfd'
        · exact hnone fd' (.inr hf)
        · exact hnone fd' (.inl hfd')
      · exact hnone fd' (.inr hfd')
    | some f =>
      have href := h.ref_pos hf
      have hset := (h.fileclose href).setFd (p, fd) none
      rw [fileclose_ofile, hf] at hset
      have h' : Consistent 0 _ := hset.congr (by
        funext g
        simp [pointer, hand])
      apply Settled.bind (fileclose_settled href)
      rintro _ t₁ n rfl
      apply (edit_spec _).bind
      intro _
      apply (ih h').conseq (fun _ hs => hs)
      rintro _ s' ⟨m, hs, ht', hsame, hnone⟩
      refine ⟨m, hs, ht', (SameBut.refl p s.t).fileclose.setFd.trans hsame, ?_⟩
      intro fd' hfd'
      apply hnone fd'
      by_cases he : fd' = fd
      · subst he
        exact .inr (update_self _ _ _)
      · rcases hfd' with hfd' | hfd'
        · exact .inl ((List.mem_cons.1 hfd').resolve_left he)
        · refine .inr ((update_of_ne (fun hx => he (Prod.mk.inj hx).2) _ _).trans ?_)
          rw [fileclose_ofile]
          exact hfd'

theorem exit_spec (h : FilesOk t) (hcwd : t.cwd p = some cwd) :
    Triple (KAt c t.held t) (exit p cwd) (Settled c fun _ => FilesOk) (Fine c) := by
  apply Settled.bind (closeAll_spec (List.finRange nOFile) h.toConsistent)
  rintro _ t₁ n ⟨h₁, hsame, hnone⟩
  have hheld : t₁.held - ref cwd = (t₁.setCwd p none).held := by
    rw [held_setCwd, hsame.cwd, hcwd]
    exact (add_zero _).symm
  have hdead := h.dead.setCwd hsame (o := none) fun _ fd =>
    hnone fd (.inl (List.mem_finRange fd))
  apply fs_beginOp (c := c.ops n)
  intro _
  apply fs_after (iput_spec cwd)
  intro _
  apply fs_endOp.bind
  intro _
  apply (edit_spec _).bind
  intro _
  rw [hheld]
  exact Triple.pure fun _ hs => settled_op hs ⟨h₁.setCwd, hdead⟩

theorem Opens.ok (h : FilesOk t) (hcwd : t.cwd p = some cwd) (ho : Opens p omode t r t') :
    FilesOk t' := by
  cases ho with
  | failed => exact h
  | @opened f fd ip hf hfd =>
    have href := freeFile_ref hf
    have htype := h.idle f href
    have hset := (h.toConsistent.setFd (p, fd) (some f))
    rw [freeFd_none hfd] at hset
    have hfile : Consistent (0 + pointer none - pointer (some f) + hand f)
        (t.opened p f fd ip omode) := by
      apply hset.of_ref (d := hand f)
      · apply hset.toPipesOk.setFile
        · intro hr
          cases hr
        · intro q w
          simp [File.IsEnd, File.opened, Files.setFd, htype]
      · rfl
      · intro g
        rw [Files.opened, ref_setFile, hand_eq]
        show _ = _ + if g = f then 1 else 0
        rw [show ((t.setFd (p, fd) (some f)).file f).ref = 0 from href]
        rfl
    have hzero : Consistent 0 _ := hfile.congr (by
      funext g
      simp [pointer, hand])
    exact ⟨hzero, h.dead.of_same (SameBut.refl p t).setFd.setFile hcwd⟩

theorem Closed.ok (h : FilesOk t) (hcwd : t.cwd p = some cwd) (hc : Closed p n t r t') :
    FilesOk t' := by
  cases hc with
  | failed => exact h
  | @closed fd f ha =>
    have hset := h.toConsistent.setFd (p, fd) none
    rw [argfd_ofile ha] at hset
    have hone : Consistent (hand f) _ := hset.congr (by
      funext g
      simp [pointer, hand])
    have hzero := (hone.fileclose (hone.ref_of_hand (hand_self f).ge)).congr (sub_self _)
    exact ⟨hzero, h.dead.of_same (SameBut.refl p t).setFd.fileclose hcwd⟩

theorem Moves.ok (h : FilesOk t) (hm : Moves p t r t') : FilesOk t' := by
  cases hm with
  | failed => exact h
  | moved ip => exact ⟨h.toConsistent.setCwd, h.dead.setCwd (.refl p t) nofun⟩

end Specs

/-- `allocproc` finds an unused process, and `kalloc` a page that is no pipe. -/
def legal (s : St) : Proc × Call → Prop
  | (_, .fork (some child) _) => s.t.cwd child = none
  | (_, .pipe _ (some q)) => s.t.allocated q = s.t.freed q
  | _ => True

instance (s : St) (e : Proc × Call) : Decidable (legal s e) := by
  rw [legal.eq_def]
  split <;> infer_instance

theorem Changes.ok {t t' : Files} (h : FilesOk t) (hcwd : t.cwd p = some cwd)
    (hc : Changes p t e r t') : FilesOk t' := by
  cases e with
  | open_ path omode => exact Opens.ok h hcwd hc
  | close n => exact Closed.ok h hcwd hc
  | chdir path => exact Moves.ok h hc
  | _ =>
    obtain rfl : t' = t := hc
    exact h

theorem keeps_ok {t : Files} {m : KernelM Int} (h : FilesOk t) (hcwd : t.cwd p = some cwd)
    (hm : Triple P m (Settled c (Keeps p t)) (Fine c)) :
    Triple P m (Settled c fun _ => FilesOk) (Fine c) := by
  apply hm.conseq (fun _ hs => hs)
  rintro _ s ⟨n, hs, ht, hsame⟩
  exact ⟨n, hs, ht, h.dead.of_same hsame hcwd⟩

theorem call_keeps {s : St} (h : FilesOk s.t) (hcwd : s.t.cwd p = some cwd) (e : Call)
    (hl : legal s (p, e)) :
    Triple (KAt c s.t.held s.t) (call p cwd e) (Settled c fun _ => FilesOk) (Fine c) := by
  cases he : e.usesFs with
  | true =>
    apply (call_spec h.idle hcwd e he ?_).conseq (fun _ hs => hs)
    · rintro _ s' ⟨n, hs, hc⟩
      exact ⟨n, hs, hc.ok h hcwd⟩
    · intro n fd f _ ha
      exact h.ref_pos (argfd_ofile ha)
  | false =>
    cases e with
    | dup n => exact keeps_ok h hcwd (sysDup_spec h.toConsistent n)
    | pipe fds page =>
      apply keeps_ok h hcwd (sysPipe_spec h.toConsistent fds page ?_)
      rintro q rfl
      exact hl
    | fork child copied =>
      apply fork_spec h
      rintro q rfl
      exact hl
    | exit => exact exit_spec h hcwd
    | _ => cases he

/-- The counts are what descriptors, files and current directories say. -/
structure Counted (s : St) : Prop where
  file : ∀ f, (s.t.file f).ref = s.t.slots f
  inode : ∀ i, s.fs.ref i = s.t.refs i
  pipe : ∀ q w, s.t.isOpen q w = true ↔ ∃ f, (s.t.file f).IsEnd q w
  page : ∀ q, s.t.allocated q
    = s.t.freed q + if s.t.readopen q = true ∨ s.t.writeopen q = true then 1 else 0

structure Inv (s : St) : Prop where
  files : FilesOk s.t
  inode : ∀ i, s.fs.ref i = s.t.refs i

section Runs
variable {s s' : St} {e : Proc × Call}

theorem Inv.counted (h : Inv s) : Counted s :=
  ⟨fun f => (h.files.tally f).trans (add_zero _), h.inode, h.files.ends, h.files.pages⟩

theorem Inv.base_zero (h : Inv s) (i : Slot) : s.ctx.base (.ref i) = 0 := by
  show s.fs.ref i - s.t.held (.ref i) = 0
  rw [held_ref, h.inode, sub_self]

theorem Inv.step (h : Inv s) (hl : legal s e) (hs : step s e = .ok s') : Inv s' := by
  obtain ⟨p, e⟩ := e
  rw [Kernel.step] at hs
  cases hcwd : s.t.cwd p with
  | none =>
    rw [hcwd] at hs
    cases hs
  | some cwd =>
    rw [hcwd] at hs
    obtain ⟨⟨r, s₁⟩, hr, hok⟩ := bind_ok hs
    cases hok
    obtain ⟨n, hat, hfiles⟩ := (call_keeps h.files hcwd e hl).ok (at_ctx s) hr
    refine ⟨hfiles, fun i => ?_⟩
    have href := (balance_of_at hat).2.2 i
    rw [h.inode] at href
    omega

theorem Inv.step_error (h : Inv s) (hl : legal s e) (hs : Kernel.step s e = .error x) :
    ¬ZeroCount x := by
  obtain ⟨p, e⟩ := e
  rw [Kernel.step] at hs
  cases hcwd : s.t.cwd p with
  | none =>
    rw [hcwd] at hs
    cases hs
    decide
  | some cwd =>
    rw [hcwd] at hs
    rcases bind_error hs with hr | ⟨a, -, ha⟩
    · have hfine := (call_keeps h.files hcwd e hl).error (at_ctx s) hr
      intro hz
      obtain ⟨i, hi⟩ := hfine hz
      rw [h.base_zero] at hi
      exact Int.lt_irrefl 0 hi
    · cases ha

theorem inv_boot (disk : FsState) (p : Proc) (root : Slot) : Inv (boot disk p root) := by
  refine ⟨⟨⟨⟨?_, ?_, ?_, ?_⟩, ?_⟩, ?_⟩, ?_⟩
  · exact fun _ _ => rfl
  · intro q w
    cases w <;> simp [boot, Files.isOpen, File.IsEnd]
  · rintro q w f g ⟨hf, -⟩
    exact absurd hf (Int.lt_irrefl 0)
  · exact fun _ => rfl
  · intro f
    simp [boot, Files.slots]
  · exact fun _ _ _ => rfl
  · intro i
    have hcwd : ∀ q, (boot disk p root).t.cwd q = some i ↔ q = p ∧ root = i := by
      intro q
      by_cases hq : q = p <;> simp [boot, hq]
    by_cases hi : root = i
    · subst hi
      simp only [Files.refs, hcwd]
      simp [boot, Finset.filter_eq']
    · simp only [Files.refs, hcwd]
      simp [boot, hi, Ne.symm hi]

/-- The counts are right, and none is zero where a reference is expected. -/
theorem ref_counts (h : Exec step legal (boot disk p root) es s) :
    Counted s ∧ ∀ e x, legal s e → step s e = .error x → ¬ZeroCount x := by
  have hinv : Inv s := h.invariant (inv_boot disk p root) fun _ _ _ hs hl => hs.step hl
  exact ⟨hinv.counted, fun _ _ hl hs => hinv.step_error hl hs⟩

end Runs

/-- A shell opens a file, makes a pipe and forks; both close an end, and it exits. -/
def pipeline : List (Proc × Call) :=
  [(0, .open_ (some [47]) 0), (0, .pipe true (some 7)), (0, .fork (some 1) true), (0, .close 1),
    (1, .close 2), (0, .exit)]

theorem ref_counts_pipeline :
    ∃ s, Exec step legal (boot emptyRoot 0 0) pipeline s ∧ Counted s ∧
      s.t.readopen 7 = true ∧ s.t.writeopen 7 = false ∧ s.t.freed 7 = 0 := by
  obtain ⟨s, hr, hs⟩ := (Option.any_eq_true _ _).1
    (show (runLegal step (fun s e => decide (legal s e)) (boot emptyRoot 0 0) pipeline).any
      (fun s => s.t.readopen 7 = true ∧ s.t.writeopen 7 = false ∧ s.t.freed 7 = 0) = true by
        decide +kernel)
  have hexec : Exec step legal (boot emptyRoot 0 0) pipeline s :=
    (exec_of_runLegal _ _ _ _ hr).mono fun _ _ => of_decide_eq_true
  exact ⟨s, hexec, (ref_counts hexec).1, of_decide_eq_true hs⟩

end Xv6.Kernel
