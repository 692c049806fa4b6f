import Xv6.Sys.Boot
import Xv6.Sys.Steps

namespace Xv6.Sys
open Lib Fs
set_option autoImplicit true

variable {s s₀ : St} {f : Nat → Inode} {strict safe : Bool} {es : List (Pid × Call)}
variable {d i n : Nat}

/-- An entry, other than ".", that refers to inode `i`. -/
def isLink (i : Nat) (de : Dirent) : Bool := de.inum = i ∧ namecmp de.name [46] ≠ 0

def linksIn (i : Nat) (ip : Inode) : Nat :=
  if ip.type = tDir ∧ 0 < ip.nlink then ip.dents.countP (isLink i) else 0

/-- The number of links to inode `i` in the file system. -/
def St.links (s : St) (i : Nat) : Nat :=
  ((List.range s.ninodes).map fun d => linksIn i (s.inode d)).sum

theorem Dots.namecmp_dot {dents : List Dirent} (h : Dots d dents) (k : Nat)
    (hk : (entry dents k).inum ≠ 0) : namecmp (entry dents k).name [46] ≠ 0 ↔ 1 ≤ k := by
  rw [ne_eq, namecmp_eq_zero, show key [46] = [46] from rfl]
  obtain rfl | rfl | hk2 : k = 0 ∨ k = 1 ∨ 2 ≤ k := by omega
  · rw [h.dot]
    decide
  · rw [h.dotdot]
    decide
  · exact ⟨fun _ => by omega, fun _ => (h.rest k hk2 hk).1⟩

theorem Tree.counts_row (h : Tree true ps n f) (hi : i ≠ 0) (d : Nat) :
    Counts (linksIn i (f d)) (· == i) fun k => named f (d, k) := by
  rw [linksIn]
  split
  · next hd =>
    have hz : isLink i .zero = false := by simp [isLink, Dirent.zero, Ne.symm hi]
    obtain ⟨F, hF, hn⟩ := counts_countP (f d).dents hz
    refine ⟨F, fun k => ?_, hn⟩
    rw [hF k]
    change isLink i (entry (f d).dents k) = true ↔ (named f (d, k) == i) = true
    rw [isLink, decide_eq_true_iff, named, namedAt, beq_iff_eq]
    constructor
    · rintro ⟨rfl, hname⟩
      have hk := ((h.dots d hd.1).namecmp_dot k hi).1 hname
      obtain rfl | hk2 : k = 1 ∨ 2 ≤ k := by omega
      · exact if_pos ⟨hd.1, .inr ⟨rfl, hd.2⟩⟩
      · exact if_pos ⟨hd.1, .inl hk2⟩
    · intro hk
      split at hk
      · next hc =>
        subst hk
        refine ⟨rfl, ((h.dots d hd.1).namecmp_dot k hi).2 ?_⟩
        rcases hc.2 with hk2 | ⟨hk1, -⟩
        · exact Nat.le_of_succ_le hk2
        · exact Nat.le_of_eq hk1.symm
      · exact absurd hk.symm hi
  · next hd =>
    apply counts_zero
    intro k
    rw [beq_eq_false_iff_ne]
    intro hk
    obtain ⟨hdir, hpos, -⟩ := of_named_ne (x := (d, k)) (by rw [hk]; exact hi)
    have hl : ¬0 < (f d).nlink := fun hl => hd ⟨hdir, hl⟩
    rcases hpos with hk2 | ⟨-, hl'⟩
    · have hr := h.removed (d, k) hk2 (by rw [hk]; exact hi) hl
      cases hr.2
    · exact hl hl'

/-- The link count of every inode in use is the number of its links. -/
theorem Tree.nlink_eq (h : Tree true [] s.ninodes s.inode) (ht : (s.inode i).type ≠ 0) :
    (s.inode i).nlink.toInt = s.links i := by
  have hi := (h.inum i ht).1
  obtain ⟨m, hm, hc⟩ := h.links i (by omega)
  have hsum : m = s.links i := by
    apply hm.eq_sum
    · intro x hx
      rw [beq_iff_eq] at hx
      obtain ⟨hd, -, -⟩ := of_named_ne (x := x) (by rw [hx]; omega)
      exact (h.inum x.1 (by rw [hd]; decide)).2
    · intro d _
      exact h.counts_row (by omega) d
  rw [← hsum, ← hc.exact ht (.inr rfl), List.count_nil]
  rfl

/-- Link counts are exact while nothing is added to a directory without links and none overflows. -/
theorem link_counts_exact (h₀ : Inv true false s₀ [] [])
    (hx : Exec step (legal true false) s₀ es s) :
    (∀ i, (s.inode i).type ≠ 0 → (s.inode i).nlink.toInt = s.links i) ∧
      ∀ i, s.links i = 0 → (∀ x, s.held x ≠ some i) → (s.inode i).type = 0 := by
  have h := h₀.exec hx
  refine ⟨fun i ht => h.tree.nlink_eq ht, fun i hl hheld => ?_⟩
  by_contra ht
  have hn := h.tree.nlink_eq ht
  rw [hl] at hn
  obtain ⟨x, hx⟩ := h.refs.noOrphan i ht (eq_zero_iff_toInt.2 hn)
  exact hheld x hx

def dirRun : List (Pid × Call) :=
  [(0, .mkdir [97]), (0, .open_ [97, 47, 120] oCreate true), (1, .link [97, 47, 120] [121]),
    (0, .unlink [97, 47, 120]), (1, .unlink [97]), (0, .close 0), (1, .exit)]

theorem link_counts_exact_dirRun : ∃ s, Exec step (legal true false) (boot 8 rootFs 2) dirRun s ∧
    ∀ i, (s.inode i).type ≠ 0 → (s.inode i).nlink.toInt = s.links i := by
  have hr : (runLegal step (checked false) (boot 8 rootFs 2) dirRun).isSome = true := by
    decide +kernel
  obtain ⟨s, hs⟩ := Option.isSome_iff_exists.1 hr
  have he : Exec step (legal true false) (boot 8 rootFs 2) dirRun s :=
    (exec_of_runLegal _ _ _ _ hs).mono fun _ _ hl => legal_of_checked hl
  exact ⟨s, he, (link_counts_exact (inv_rootFs (by decide) (by decide) 2) he).1⟩

/-- A file is created in a removed current directory, and both are left. -/
def removedDirRun : List (Pid × Call) :=
  [(0, .mkdir [97]), (0, .chdir [97]), (0, .unlink [46, 46, 47, 97]),
    (0, .open_ [120] oCreate true), (0, .close 0), (0, .chdir [47])]

/-- The file has a link count of 1, no links, and is not freed. -/
theorem removedDirRun_leaks : ∃ s, Exec step (fun _ _ => True) (boot 8 rootFs 1) removedDirRun s ∧
    (s.inode 3).type = tFile ∧ (s.inode 3).nlink = 1 ∧ s.links 3 = 0 ∧ s.ref 3 = 0 := by
  have hr : (runLegal step (fun _ _ => true) (boot 8 rootFs 1) removedDirRun).any (fun s =>
      (s.inode 3).type = tFile ∧ (s.inode 3).nlink = 1 ∧ s.links 3 = 0 ∧ s.ref 3 = 0) = true := by
    decide +kernel
  obtain ⟨s, hs, hq⟩ := (Option.any_eq_true _ _).1 hr
  have he := exec_of_runLegal _ _ _ _ hs
  exact ⟨s, he.mono fun _ _ _ => trivial, of_decide_eq_true hq⟩

/-- A linked directory other than the root has one name, in the directory that ".." in it names. -/
theorem directory_parent (h₀ : Inv strict safe s₀ [] []) (hx : Exec step (legal strict safe) s₀ es s)
    (hd : Linked s.inode d) (hroot : d ≠ rootIno) :
    Linked s.inode (ent s.inode d 1) ∧ ∃ k, 2 ≤ k ∧ ent s.inode (ent s.inode d 1) k = d ∧
      ∀ e j, (s.inode e).type = tDir → 2 ≤ j → ent s.inode e j = d → e = ent s.inode d 1 ∧ j = k := by
  have h := (h₀.exec hx).tree
  obtain ⟨hup, k, hk, hent⟩ := h.parent d hd hroot
  refine ⟨hup, k, hk, hent, fun e j he hj hej => ?_⟩
  have hx : named s.inode (e, j) = d := (named_ge hj he).trans hej
  have hy : named s.inode (ent s.inode d 1, k) = d := (named_ge hk hup.1).trans hent
  have heq := h.single (e, j) _ hj hk (hx.trans hy.symm)
  rw [hx] at heq
  exact Prod.mk.inj (heq hd.1)

theorem directory_parent_mkdir : ∃ s, Exec step (legal true false) (boot 8 rootFs 2) (dirRun.take 1) s ∧
    Linked s.inode 2 ∧ Linked s.inode (ent s.inode 2 1) := by
  obtain ⟨s, hs, hd⟩ := (Option.any_eq_true _ _).1
    (show (runLegal step (checked false) (boot 8 rootFs 2) (dirRun.take 1)).any
      (fun s => (s.inode 2).type = tDir ∧ 0 < (s.inode 2).nlink) = true by decide +kernel)
  have he : Exec step (legal true false) _ (dirRun.take 1) s :=
    (exec_of_runLegal _ _ _ _ hs).mono fun _ _ hl => legal_of_checked hl
  have hd := of_decide_eq_true hd
  exact ⟨s, he, hd, (directory_parent (inv_rootFs (by decide) (by decide) 2) he hd (by decide)).1⟩

end Xv6.Sys
