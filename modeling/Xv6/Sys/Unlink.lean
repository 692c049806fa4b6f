import Xv6.Sys.Link

namespace Xv6.Sys
open Lib Fs Function
set_option autoImplicit true

variable {s s' : St} {f : Nat → Inode} {strict safe : Bool} {r : Int} {dents : List Dirent}
variable {ts ps : List Nat} {c cwd d dp i j k n p : Nat} {name path : List UInt8}

theorem iput_setNlink (s : St) (h : i ≠ j) (v : Int16) :
    (iput s j).setNlink i v = iput (s.setNlink i v) j := by
  have hj : (s.setNlink i v).inode j = s.inode j := setNlink_of_ne s v (Ne.symm h)
  have hc : (s.setNlink i v).valid = s.valid ∧ (s.setNlink i v).ref = s.ref := ⟨rfl, rfl⟩
  by_cases hk : s.valid j = true ∧ (s.inode j).nlink = 0 ∧ s.ref j = 1
  · simp only [iput, hj, hc, hk, and_self, ↓reduceIte]
    simp only [St.setNlink, St.setInode, St.free, update_of_ne h,
      update_of_ne (Ne.symm h)]
    rw [update_comm h]
  · simp only [iput, hj, hc, hk, ↓reduceIte]
    rfl

theorem entries_of_isdirempty (h : isdirempty dents = true) (hk : 2 ≤ k) :
    (entry dents k).inum = 0 := by
  by_cases hlt : k < dents.length
  · rw [entry_of_lt hlt]
    have hall := List.all_eq_true.1 h
    have hmem : dents[k] ∈ dents.drop 2 := by
      rw [List.mem_drop_iff_getElem]
      exact ⟨k - 2, by omega, by simp only [Nat.add_sub_cancel' hk]⟩
    simpa using hall _ hmem
  · rw [entry_of_le (Nat.le_of_not_lt hlt)]
    rfl

theorem Inv.unlinkFile (h : Inv strict safe s (i :: dp :: ts) ps) (hv : s.valid i = true)
    (hd : (s.inode dp).type = tDir) (hk : 2 ≤ k) (he : ent s.inode dp k = i) (hi0 : i ≠ 0)
    (htd : (s.inode i).type ≠ tDir) :
    Inv strict safe (Sys.iput ((Sys.iput (s.setDirent dp k .zero) dp).setNlink i
      ((s.inode i).nlink - 1)) i) ts ps := by
  have hidp : i ≠ dp := by
    rintro rfl
    exact htd hd
  have hlen : k ≤ (s.inode dp).dents.length := by
    apply Nat.le_of_lt
    apply lt_of_inum_ne
    rw [← ent, he]
    exact hi0
  have hsame : (s.setDirent dp k .zero).inode i = s.inode i := update_of_ne hidp _ _
  have hi₁ : Inv strict safe (s.setDirent dp k .zero) (i :: dp :: ts) (i :: ps) :=
    ⟨h.tree.clearEntry hd hk he hi0 htd, h.refs.setDirent hk hlen _⟩
  have hz : named s.inode (dp, k) = i := by
    rw [named_ge hk hd]
    exact he
  have ht := (h.tree.of_named hi0 hz).1
  rw [iput_setNlink _ hidp]
  rw [← hsame] at ht htd ⊢
  have hi₂ : Inv strict safe ((s.setDirent dp k .zero).setNlink i
      (((s.setDirent dp k .zero).inode i).nlink - 1)) (i :: dp :: ts) ps :=
    ⟨hi₁.tree.unbump ht htd, hi₁.refs.setNlink htd fun _ => .inr ⟨hv, List.mem_cons_self⟩⟩
  exact (hi₂.perm (List.Perm.swap dp i ts)).iput.iput

theorem Refs.rmdir (h : Refs safe s (i :: ts)) (hv : s.valid i = true) (hidp : i ≠ dp)
    (hk : 2 ≤ k) (hlen : k ≤ (s.inode dp).dents.length) (hdpos : 0 < (s.inode dp).nlink - 1)
    (hsafe : safe = true → ∀ q c, s.held (.cwd q) = some c → ent s.inode c 1 ≠ i) :
    Refs safe (((s.setDirent dp k .zero).setNlink dp ((s.inode dp).nlink - 1)).setNlink i
      ((s.inode i).nlink - 1)) (i :: ts) := by
  generalize hs' : ((s.setDirent dp k .zero).setNlink dp ((s.inode dp).nlink - 1)).setNlink i
    ((s.inode i).nlink - 1) = s'
  have htype (j : Nat) : (s'.inode j).type = (s.inode j).type := by
    rw [← hs', setNlink_type, setNlink_type, setDirent_type]
  have hdp : (s'.inode dp).nlink = (s.inode dp).nlink - 1 := by
    rw [← hs', setNlink_of_ne _ _ (Ne.symm hidp), setNlink_self]
  have hother (j : Nat) (hji : j ≠ i) (hjd : j ≠ dp) :
      (s'.inode j).nlink = (s.inode j).nlink := by
    rw [← hs', setNlink_of_ne _ _ hji, setNlink_of_ne _ _ hjd, setDirent_nlink]
  have he : s' = { s with inode := s'.inode } := by
    rw [← hs']
    rfl
  rw [he]
  apply h.edit
  · intro j hj
    rwa [htype]
  · intro j hj
    rwa [htype]
  · intro j hj hl
    rw [htype] at hj
    by_cases hji : j = i
    · subst hji
      exact .inr ⟨hv, List.mem_cons_self⟩
    · by_cases hjd : j = dp
      · subst hjd
        rw [hdp] at hl
        rw [hl] at hdpos
        exact absurd hdpos (by decide)
      · rw [hother j hji hjd] at hl
        exact .inl ⟨hj, hl⟩
  · intro hs q c hc
    have hlk := h.above hs q c hc
    have hup : ent s'.inode c 1 = ent s.inode c 1 := by
      rw [← hs', ent, setNlink_dents, setNlink_dents, ← ent, ent_one_setDirent hk hlen]
    rw [hup, Linked, htype]
    by_cases hjd : ent s.inode c 1 = dp
    · rw [hjd] at hlk ⊢
      rw [hdp]
      exact ⟨hlk.1, hdpos⟩
    · rw [hother _ (hsafe hs q c hc) hjd]
      exact hlk

theorem Inv.unlinkDir (h : Inv strict safe s (i :: dp :: ts) ps) (hv : s.valid i = true)
    (hd : (s.inode dp).type = tDir) (hk : 2 ≤ k) (he : ent s.inode dp k = i) (hi0 : i ≠ 0)
    (hti : (s.inode i).type = tDir) (hempty : isdirempty (s.inode i).dents = true)
    (hps : ps.count i = 0)
    (hsafe : safe = true → ∀ q c, s.held (.cwd q) = some c → ent s.inode c 1 ≠ i) :
    Inv strict safe (Sys.iput ((Sys.iput ((s.setDirent dp k .zero).setNlink dp
      ((s.inode dp).nlink - 1)) dp).setNlink i ((s.inode i).nlink - 1)) i) ts ps := by
  have hemp (l : Nat) (hl : 2 ≤ l) : ent s.inode i l = 0 := entries_of_isdirempty hempty hl
  obtain ⟨hlk, hone, -, hidp, -⟩ := h.tree.of_empty hd hk he hti hemp hps
  obtain ⟨htree, hdpos⟩ := h.tree.rmdir hd hk he hti hemp hps
  have hlen : k ≤ (s.inode dp).dents.length := by
    apply Nat.le_of_lt
    apply lt_of_inum_ne
    rw [← ent, he]
    exact hi0
  rw [iput_setNlink _ hidp]
  have hinode : (((s.setDirent dp k .zero).setNlink dp ((s.inode dp).nlink - 1)).setNlink i
      ((s.inode i).nlink - 1)).inode = update (update s.inode dp
        { s.inode dp with
          nlink := (s.inode dp).nlink - 1, dents := putDirent (s.inode dp).dents k .zero })
        i { s.inode i with nlink := (s.inode i).nlink - 1 } := by
    simp only [St.setNlink, St.setDirent, St.setInode, update_self,
      update_of_ne hidp, update_idem]
  have hi₂ : Inv strict safe (((s.setDirent dp k .zero).setNlink dp
      ((s.inode dp).nlink - 1)).setNlink i ((s.inode i).nlink - 1)) (i :: dp :: ts) ps := by
    constructor
    · rw [hinode]
      exact htree
    · exact h.refs.rmdir hv hidp hk hlen hdpos hsafe
  exact (hi₂.perm (List.Perm.swap dp i ts)).iput.iput

/-- `sys_unlink` once the entry is found. -/
theorem Inv.unlinkAt (h : Inv strict safe s (i :: dp :: ts) ps) (hv : s.valid i = true)
    (hd : (s.inode dp).type = tDir) (hk : 2 ≤ k) (he : ent s.inode dp k = i) (hi0 : i ≠ 0)
    (hps : ps.count i = 0)
    (hsafe : safe = true → (s.inode i).type = tDir → isdirempty (s.inode i).dents = true →
      ∀ q c, s.held (.cwd q) = some c → ent s.inode c 1 ≠ i)
    (ho : Sys.unlinkAt s dp k i = .ok (s', r)) : Inv strict safe s' ts ps := by
  rw [Sys.unlinkAt] at ho
  obtain ⟨-, ho⟩ := unless_ok ho
  split at ho
  · cases ho
    exact h.iput.iput
  · next hne =>
    cases ho
    by_cases hti : (s.inode i).type = tDir
    · have hempty : isdirempty (s.inode i).dents = true := by
        cases hb : isdirempty (s.inode i).dents with
        | false => exact absurd ⟨hti, hb⟩ hne
        | true => rfl
      have hemp (l : Nat) (hl : 2 ≤ l) : ent s.inode i l = 0 := entries_of_isdirempty hempty hl
      obtain ⟨-, -, -, hidp, -⟩ := h.tree.of_empty hd hk he hti hemp hps
      simp only [setDirent_type, hti, ↓reduceIte]
      rw [inode_iput_ne _ hidp, setNlink_of_ne _ _ hidp, setDirent_nlink, setDirent_nlink]
      exact h.unlinkDir hv hd hk he hi0 hti hempty hps fun hs => hsafe hs hti hempty
    · have hidp : i ≠ dp := by
        rintro rfl
        exact hti hd
      simp only [setDirent_type, hti, ↓reduceIte]
      rw [inode_iput_ne _ hidp, setDirent_nlink]
      exact h.unlinkFile hv hd hk he hi0 hti

theorem Dots.two_le (h : Dots d dents) (hf : find dents name = some (k, i))
    (hname : ¬(namecmp name [46] = 0 ∨ namecmp name [46, 46] = 0)) : 2 ≤ k := by
  obtain ⟨-, -, hkey, -⟩ := find_some hf
  by_contra hlt
  apply hname
  obtain rfl | rfl : k = 0 ∨ k = 1 := by omega
  · left
    rw [namecmp_eq_zero, hkey, h.dot]
    rfl
  · right
    rw [namecmp_eq_zero, hkey, h.dotdot]
    rfl

/-- The directory that `sys_unlink` of a path removes, if it removes one. -/
def St.removes (s : St) (cwd : Nat) (path : List UInt8) : Option Nat :=
  match s.lookup cwd path true with
  | none => none
  | some (dp, name) =>
    if namecmp name [46] = 0 ∨ namecmp name [46, 46] = 0 then none
    else
      match find (s.inode dp).dents name with
      | none => none
      | some (_, ip) =>
        if (s.inode ip).type = tDir ∧ isdirempty (s.inode ip).dents then some ip else none

theorem removes_eq_some (hl : s.lookup cwd path true = some (dp, name))
    (hname : ¬(namecmp name [46] = 0 ∨ namecmp name [46, 46] = 0))
    (hf : find (s.inode dp).dents name = some (k, i)) (ht : (s.inode i).type = tDir)
    (he : isdirempty (s.inode i).dents = true) : s.removes cwd path = some i := by
  rw [St.removes, hl]
  simp only [hname, hf, ht, he, and_self, ↓reduceIte]

theorem Inv.unlink (h : Inv strict safe s ts []) (hn : NoOrphan s)
    (hc : s.held (.cwd p) = some cwd)
    (hsafe : safe = true → ∀ i, s.removes cwd path = some i →
      ∀ q c, s.held (.cwd q) = some c → ent s.inode c 1 ≠ i)
    (ho : sysUnlink s cwd path = .ok (s', r)) : Inv strict safe s' ts [] := by
  rw [sysUnlink] at ho
  obtain ⟨⟨s₁, r₁⟩, h₁, ho⟩ := bind_ok ho
  obtain ⟨hs₁, hr₁, hi₁⟩ := h.namex hn (h.refs.pos_of_held hc) h₁
  cases r₁ with
  | none =>
    cases ho
    exact hi₁
  | some r₁ =>
    obtain ⟨dp, name⟩ := r₁
    obtain ⟨s₂, h₂, ho⟩ := bind_ok ho
    obtain ⟨hr₂, hs₂, -, -, -⟩ := hi₁.refs.ilock (hi₁.refs.pos_of_mem List.mem_cons_self) h₂
    have hi₂ := hi₁.same hs₂ hr₂
    split at ho
    · cases ho
      exact hi₂.iput
    · next hname =>
      obtain ⟨⟨s₃, r₃⟩, h₃, ho⟩ := bind_ok ho
      obtain ⟨hd, hs₃, hr₃, hi₃⟩ := hi₂.dirlookup h₃
      cases r₃ with
      | none =>
        cases ho
        exact hi₃.iput
      | some r₃ =>
        obtain ⟨k, i⟩ := r₃
        obtain ⟨s₄, h₄, ho⟩ := bind_ok ho
        obtain ⟨hr₄, hs₄, -, hv, -⟩ :=
          hi₃.refs.ilock (hi₃.refs.pos_of_mem List.mem_cons_self) h₄
        have hi₄ := hi₃.same hs₄ hr₄
        have hs₂₄ := hs₃.trans hs₄
        have hs := (hs₁.trans hs₂).trans hs₂₄
        rw [← hs₂₄.inode] at hd hr₃
        have hk := (hi₄.tree.dots dp hd).two_le hr₃.symm hname
        obtain ⟨he, hi0, -, -⟩ := find_some hr₃.symm
        apply hi₄.unlinkAt hv hd hk he hi0 List.count_nil _ ho
        intro hsf hti hempty q c hq
        rw [hs.inode] at hr₃ hti hempty ⊢
        rw [hs.held] at hq
        exact hsafe hsf i (removes_eq_some hr₁.symm hname hr₃.symm hti hempty) q c hq

end Xv6.Sys
