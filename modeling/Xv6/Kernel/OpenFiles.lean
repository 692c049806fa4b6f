import Mathlib.Data.Fintype.Prod
import Xv6.Kernel.Balance

namespace Xv6.Kernel
open Lib Fs
open Sys (nOFile)
set_option autoImplicit true

def Files.slots (t : Files) (f : FileId) : Nat :=
  (Finset.univ.filter fun x => t.ofile x = some f).card

/-- The count that a pointer in a descriptor stands for. -/
def pointer (o : Option FileId) (f : FileId) : Int :=
  if o = some f then 1 else 0

theorem slots_eq_sum (t : Files) (f : FileId) :
    (t.slots f : Int) = ∑ x, pointer (t.ofile x) f :=
  Finset.natCast_card_filter _ _

theorem slots_setFd (t : Files) (x : Proc × Fin nOFile) (o : Option FileId) (f : FileId) :
    ((t.setFd x o).slots f : Int) = t.slots f - pointer (t.ofile x) f + pointer o f := by
  rw [slots_eq_sum, slots_eq_sum]
  exact sum_update (pointer · f) t.ofile x o

theorem slots_pos {t : Files} (h : t.ofile x = some f) : 1 ≤ t.slots f :=
  Finset.card_pos.2 ⟨x, by simpa using h⟩

/-- File `x` is the read end, or the write end, of the pipe in page `q`. -/
def File.IsEnd (x : File) (q : Nat) (w : Bool) : Prop :=
  0 < x.ref ∧ x.type = .pipe ∧ x.pipe = q ∧ x.writable = w

def Files.isOpen (t : Files) (q : Nat) (w : Bool) : Bool :=
  if w then t.writeopen q else t.readopen q

structure PipesOk (t : Files) : Prop where
  idle : t.Idle
  ends : ∀ q w, t.isOpen q w = true ↔ ∃ f, (t.file f).IsEnd q w
  unique : ∀ q w f g, (t.file f).IsEnd q w → (t.file g).IsEnd q w → f = g
  pages : ∀ q, t.allocated q
    = t.freed q + if t.readopen q = true ∨ t.writeopen q = true then 1 else 0

/-- The counts of the files, `e` of whose references are in no descriptor. -/
structure Consistent (e : FileId → Int) (t : Files) : Prop extends PipesOk t where
  tally : ∀ f, (t.file f).ref = t.slots f + e f

def hand (f : FileId) : FileId → Int := pointer (some f)

@[simp] theorem hand_self (f : FileId) : hand f f = 1 :=
  if_pos rfl

section Steps
variable {t : Files} {e : FileId → Int} {x : File}

theorem PipesOk.setFile (h : PipesOk t) (hidle : x.ref = 0 → x.type = .none)
    (hend : ∀ q w, x.IsEnd q w ↔ (t.file f).IsEnd q w) : PipesOk (t.setFile f x) := by
  have hall : ∀ g q w, ((t.setFile f x).file g).IsEnd q w ↔ (t.file g).IsEnd q w := by
    intro g q w
    by_cases hg : g = f
    · subst hg
      rw [setFile_file]
      exact hend q w
    · rw [setFile_of_ne _ _ hg]
  refine ⟨?_, ?_, ?_, h.pages⟩
  · intro g hr
    by_cases hg : g = f
    · subst hg
      rw [setFile_file] at hr ⊢
      exact hidle hr
    · rw [setFile_of_ne _ _ hg] at hr ⊢
      exact h.idle g hr
  · intro q w
    simp only [hall]
    exact h.ends q w
  · intro q w g g' hg hg'
    exact h.unique q w g g' ((hall g q w).1 hg) ((hall g' q w).1 hg')

theorem PipesOk.setFd (h : PipesOk t) : PipesOk (t.setFd y o) :=
  ⟨h.idle, h.ends, h.unique, h.pages⟩

theorem PipesOk.setCwd (h : PipesOk t) : PipesOk (t.setCwd p o) :=
  ⟨h.idle, h.ends, h.unique, h.pages⟩

theorem PipesOk.closeEnd (h : PipesOk t) (hf : (t.file f).IsEnd q w) :
    ∀ g q' w', ((t.setFile f { t.file f with ref := 0, type := .none }).file g).IsEnd q' w' ↔
      (t.file g).IsEnd q' w' ∧ ¬(q' = q ∧ w' = w) := by
  intro g q' w'
  by_cases hg : g = f
  · subst hg
    rw [setFile_file]
    refine ⟨fun hend => absurd hend.1 (Int.lt_irrefl 0), ?_⟩
    rintro ⟨⟨-, -, hq, hw⟩, hne⟩
    exact absurd ⟨hq.symm.trans hf.2.2.1, hw.symm.trans hf.2.2.2⟩ hne
  · rw [setFile_of_ne _ _ hg]
    refine ⟨fun hend => ⟨hend, ?_⟩, And.left⟩
    rintro ⟨rfl, rfl⟩
    exact hg (h.unique _ _ _ _ hend hf)

@[simp] theorem pipeclose_file (t : Files) (q : Nat) (w : Bool) :
    (t.pipeclose q w).file = t.file := by
  simp only [Files.pipeclose]
  split <;> cases w <;> rfl

@[simp] theorem pipeclose_ofile (t : Files) (q : Nat) (w : Bool) :
    (t.pipeclose q w).ofile = t.ofile := by
  simp only [Files.pipeclose]
  split <;> cases w <;> rfl

@[simp] theorem pipeclose_cwd (t : Files) (q : Nat) (w : Bool) :
    (t.pipeclose q w).cwd = t.cwd := by
  simp only [Files.pipeclose]
  split <;> cases w <;> rfl

theorem isOpen_pipeclose (t : Files) (q : Nat) (w : Bool) (q' : Nat) (w' : Bool) :
    (t.pipeclose q w).isOpen q' w' = true ↔ t.isOpen q' w' = true ∧ ¬(q' = q ∧ w' = w) := by
  have hend : (t.pipeclose q w).isOpen q' w' = (t.closeEnd q w).isOpen q' w' := by
    simp only [Files.pipeclose]
    split <;> rfl
  rw [hend]
  by_cases hq : q' = q
  · subst hq
    cases w <;> cases w' <;> simp [Files.isOpen, Files.closeEnd]
  · cases w <;> cases w' <;> simp [Files.isOpen, Files.closeEnd, hq]

theorem pipeclose_of_ne (t : Files) (w : Bool) (hq : q' ≠ q) :
    (t.pipeclose q w).allocated q' = t.allocated q' ∧ (t.pipeclose q w).freed q' = t.freed q' ∧
      (t.pipeclose q w).readopen q' = t.readopen q' ∧
      (t.pipeclose q w).writeopen q' = t.writeopen q' := by
  simp only [Files.pipeclose]
  split <;> cases w <;> simp [Files.closeEnd, Files.kfree, hq]

theorem pages_pipeclose (h : t.isOpen q w = true)
    (hp : ∀ q, t.allocated q
      = t.freed q + if t.readopen q = true ∨ t.writeopen q = true then 1 else 0) (q' : Nat) :
    (t.pipeclose q w).allocated q' = (t.pipeclose q w).freed q' +
      if (t.pipeclose q w).readopen q' = true ∨ (t.pipeclose q w).writeopen q' = true
      then 1 else 0 := by
  have hq' := hp q'
  by_cases hq : q' = q
  · subst hq
    revert hq' h
    cases w <;> cases hr : t.readopen q' <;> cases hw : t.writeopen q' <;>
      simp [Files.isOpen, Files.pipeclose, Files.closeEnd, Files.kfree, hr, hw]
  · obtain ⟨ha, hf, hr, hw⟩ := pipeclose_of_ne t w hq
    rw [ha, hf, hr, hw]
    exact hq'

theorem closeLast_of_pipe (h : (t.file f).IsEnd q w) :
    t.closeLast f = (t.setFile f { t.file f with ref := 0, type := .none }).pipeclose q w := by
  obtain ⟨-, htype, rfl, rfl⟩ := h
  simp only [Files.closeLast, htype, if_true]

theorem PipesOk.closeLast (h : PipesOk t) (hf : 1 ≤ (t.file f).ref) : PipesOk (t.closeLast f) := by
  by_cases htype : (t.file f).type = .pipe
  · have hend : (t.file f).IsEnd (t.file f).pipe (t.file f).writable := ⟨hf, htype, rfl, rfl⟩
    have hothers := h.closeEnd hend
    rw [closeLast_of_pipe hend]
    refine ⟨?_, ?_, ?_, ?_⟩
    · intro g hr
      rw [pipeclose_file] at hr ⊢
      by_cases hg : g = f
      · subst hg
        rw [setFile_file]
      · rw [setFile_of_ne _ _ hg] at hr ⊢
        exact h.idle g hr
    · intro q w
      rw [isOpen_pipeclose, pipeclose_file]
      simp only [hothers, exists_and_right]
      exact and_congr_left fun _ => h.ends q w
    · intro q w g g' hg hg'
      rw [pipeclose_file, hothers] at hg hg'
      exact h.unique q w g g' hg.1 hg'.1
    · exact pages_pipeclose ((h.ends _ _).2 ⟨f, hend⟩) h.pages
  · simp only [Files.closeLast, if_neg htype]
    apply h.setFile (fun _ => rfl)
    intro q w
    simp [File.IsEnd, htype]

theorem PipesOk.fileclose (h : PipesOk t) (hf : 1 ≤ (t.file f).ref) : PipesOk (t.fileclose f) := by
  rw [Files.fileclose]
  split
  · next hpos =>
    apply h.setFile (fun hr => by simp only at hr; omega)
    intro q w
    simp only [File.IsEnd, hpos, show 0 < (t.file f).ref by omega]
  · exact h.closeLast hf

theorem PipesOk.not_end (h : PipesOk t) (hq : t.allocated q = t.freed q) (w : Bool) :
    ¬(t.file f).IsEnd q w := by
  intro hf
  have hopen := (h.ends q w).2 ⟨f, hf⟩
  have hpage := h.pages q
  rw [if_pos] at hpage
  · omega
  · cases w with
    | false => exact .inl hopen
    | true => exact .inr hopen

theorem isEnd_makePipe (hne : f₀ ≠ f₁) (h₀ : (t.file f₀).ref = 1) (h₁ : (t.file f₁).ref = 1)
    (hn₀ : (t.file f₀).type = .none) (hn₁ : (t.file f₁).type = .none) (g : FileId) (q' : Nat)
    (w : Bool) : ((t.makePipe q f₀ f₁).file g).IsEnd q' w ↔
      (t.file g).IsEnd q' w ∨ q' = q ∧ g = if w then f₁ else f₀ := by
  by_cases hg₁ : g = f₁
  · subst hg₁
    cases w <;>
      simp [Files.makePipe, Files.setFile, File.IsEnd, h₁, hn₁, Ne.symm hne, eq_comm (a := q)]
  · by_cases hg₀ : g = f₀
    · subst hg₀
      cases w <;>
        simp [Files.makePipe, Files.setFile, File.IsEnd, h₀, hn₀, hne, eq_comm (a := q)]
    · cases w <;> simp [Files.makePipe, Files.setFile, File.IsEnd, hg₀, hg₁]

theorem PipesOk.makePipe (h : PipesOk t) (hne : f₀ ≠ f₁) (h₀ : (t.file f₀).ref = 1)
    (h₁ : (t.file f₁).ref = 1) (hn₀ : (t.file f₀).type = .none)
    (hn₁ : (t.file f₁).type = .none) (hq : t.allocated q = t.freed q) :
    PipesOk (t.makePipe q f₀ f₁) := by
  have hends := isEnd_makePipe (q := q) hne h₀ h₁ hn₀ hn₁
  refine ⟨?_, ?_, ?_, ?_⟩
  · intro g hr
    by_cases hg₁ : g = f₁
    · subst hg₁
      simp [Files.makePipe, Files.setFile, h₁, Ne.symm hne] at hr
    · by_cases hg₀ : g = f₀
      · subst hg₀
        simp [Files.makePipe, Files.setFile, h₀, hne] at hr
      · have hsame : (t.makePipe q f₀ f₁).file g = t.file g := by
          simp [Files.makePipe, Files.setFile, hg₀, hg₁]
        rw [hsame] at hr ⊢
        exact h.idle g hr
  · intro q' w
    simp only [hends, exists_or, exists_and_left, exists_eq, and_true]
    rw [← h.ends q' w]
    by_cases hq' : q' = q
    · subst hq'
      cases w <;> simp [Files.makePipe, Files.setFile, Files.isOpen]
    · cases w <;> simp [Files.makePipe, Files.setFile, Files.isOpen, hq']
  · intro q' w g g' hg hg'
    rw [hends] at hg hg'
    rcases hg with hg | ⟨rfl, rfl⟩
    · rcases hg' with hg' | ⟨rfl, -⟩
      · exact h.unique q' w g g' hg hg'
      · exact absurd hg (h.not_end hq w)
    · rcases hg' with hg' | ⟨-, rfl⟩
      · exact absurd hg' (h.not_end hq w)
      · rfl
  · intro q'
    have hpage := h.pages q'
    by_cases hq' : q' = q
    · subst hq'
      simp [Files.makePipe, Files.setFile, hq]
    · simpa [Files.makePipe, Files.setFile, hq'] using hpage

theorem Consistent.of_ref {t' : Files} (h : Consistent e t) (hp : PipesOk t')
    (ho : t'.ofile = t.ofile) (hr : ∀ g, (t'.file g).ref = (t.file g).ref + d g) :
    Consistent (e + d) t' := by
  refine ⟨hp, fun g => ?_⟩
  have hslots : t'.slots g = t.slots g := by
    rw [Files.slots, Files.slots, ho]
  rw [hr, h.tally, hslots, Pi.add_apply, add_assoc]

theorem Consistent.setFd (h : Consistent e t) (y : Proc × Fin nOFile) (o : Option FileId) :
    Consistent (e + pointer (t.ofile y) - pointer o) (t.setFd y o) := by
  refine ⟨h.toPipesOk.setFd, fun f => ?_⟩
  have htally := h.tally f
  have hslots := slots_setFd t y o f
  show (t.file f).ref = _ + (e f + pointer (t.ofile y) f - pointer o f)
  omega

theorem ref_setFile (t : Files) (f : FileId) (x : File) (g : FileId) :
    ((t.setFile f x).file g).ref
      = (t.file g).ref + if g = f then x.ref - (t.file f).ref else 0 := by
  by_cases hg : g = f
  · subst hg
    rw [setFile_file, if_pos rfl]
    omega
  · rw [setFile_of_ne _ _ hg, if_neg hg, add_zero]

theorem hand_eq (f g : FileId) : hand f g = if g = f then 1 else 0 := by
  simp only [hand, pointer, Option.some.injEq, eq_comm]

theorem Consistent.filealloc (h : Consistent e t) (hf : t.freeFile = some f) :
    Consistent (e + hand f) t.filealloc := by
  have href := freeFile_ref hf
  have htype := h.idle f href
  rw [filealloc_file hf]
  apply h.of_ref
  · apply h.toPipesOk.setFile
    · intro hr
      cases hr
    · intro q w
      simp [File.IsEnd, htype]
  · rfl
  · intro g
    rw [ref_setFile, hand_eq, href]
    rfl

theorem Consistent.filedup (h : Consistent e t) (hf : 1 ≤ (t.file f).ref) :
    Consistent (e + hand f) (t.filedup f) := by
  apply h.of_ref
  · apply h.toPipesOk.setFile
    · intro hr
      simp only at hr
      omega
    · intro q w
      simp only [File.IsEnd, show 0 < (t.file f).ref + 1 by omega, show 0 < (t.file f).ref by omega]
  · rfl
  · intro g
    rw [Files.filedup, ref_setFile, hand_eq, add_sub_cancel_left]

theorem fileclose_file (t : Files) (f : FileId) :
    (t.fileclose f).file = (t.setFile f { t.file f with
      ref := if 0 < (t.file f).ref - 1 then (t.file f).ref - 1 else 0
      type := if 0 < (t.file f).ref - 1 then (t.file f).type else .none }).file := by
  rw [Files.fileclose]
  split
  · rfl
  · simp only [Files.closeLast]
    split
    · exact pipeclose_file _ _ _
    · rfl

theorem fileclose_ofile (t : Files) (f : FileId) : (t.fileclose f).ofile = t.ofile := by
  rw [Files.fileclose]
  split
  · rfl
  · simp only [Files.closeLast]
    split
    · exact pipeclose_ofile _ _ _
    · rfl

theorem fileclose_cwd (t : Files) (f : FileId) : (t.fileclose f).cwd = t.cwd := by
  rw [Files.fileclose]
  split
  · rfl
  · simp only [Files.closeLast]
    split
    · exact pipeclose_cwd _ _ _
    · rfl

theorem Consistent.fileclose (h : Consistent e t) (hf : 1 ≤ (t.file f).ref) :
    Consistent (e - hand f) (t.fileclose f) := by
  rw [sub_eq_add_neg]
  apply h.of_ref (h.toPipesOk.fileclose hf) (fileclose_ofile t f)
  intro g
  rw [fileclose_file, ref_setFile, Pi.neg_apply, hand_eq]
  split
  · dsimp only
    split <;> omega
  · rfl

theorem Consistent.setCwd (h : Consistent e t) : Consistent e (t.setCwd p o) :=
  ⟨h.toPipesOk.setCwd, h.tally⟩

theorem Consistent.ref_pos (h : Consistent 0 t) (hx : t.ofile y = some f) :
    1 ≤ (t.file f).ref := by
  have htally := h.tally f
  have hslots := slots_pos hx
  rw [Pi.zero_apply] at htally
  omega

end Steps

end Xv6.Kernel
