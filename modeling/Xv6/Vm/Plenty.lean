import Mathlib.Data.Fintype.Card
import Xv6.Vm.Alloc

namespace Xv6.Vm
open Lib Function
set_option autoImplicit true

variable {L : Image} {k k' : Kmem} {d d' : Pgdir} {s u w p sz : Nat}

/-- The number of page tables that a directory does not have. -/
def Pgdir.vacant (d : Pgdir) : Nat := (Finset.univ.filter fun i => (d.pde i).isNone).card

/-- `kalloc` does not fail, with free pages for all page tables and `s` more. -/
def Ample (k : Kmem) (d : Pgdir) (s : Nat) : Prop :=
  k.deny = [] ∧ d.vacant + s ≤ k.freelist.length

theorem vacant_le (d : Pgdir) : d.vacant ≤ 1024 := by
  apply Nat.le_trans (Finset.card_filter_le _ _)
  rw [Finset.card_univ, Fintype.card_fin]

theorem vacant_setPte (h : (d.pde (pdx a)).isSome) (e : Option Pte) : (d.setPte a e).vacant = d.vacant := by
  obtain ⟨t, ht⟩ := Option.isSome_iff_exists.1 h
  have hnone (i : Fin 1024) : ((d.setPte a e).pde i).isNone = (d.pde i).isNone := by
    simp only [Pgdir.setPte, ht]
    by_cases hi : i = pdx a
    · rw [hi, update_self, ht]
      rfl
    · rw [update_of_ne hi]
  rw [Pgdir.vacant, Pgdir.vacant]
  simp only [hnone]

theorem vacant_add (h : d.pde i = none) (t : Table) :
    ({ d with pde := update d.pde i (some t) } : Pgdir).vacant + 1 = d.vacant := by
  have herase : (Finset.univ.filter fun j => (update d.pde i (some t) j).isNone) =
      (Finset.univ.filter fun j => (d.pde j).isNone).erase i := by
    ext j
    rw [Finset.mem_erase, Finset.mem_filter, Finset.mem_filter]
    by_cases hj : j = i
    · subst hj
      rw [update_self]
      exact iff_of_false (fun hs => nomatch hs.2) fun hs => hs.1 rfl
    · rw [update_of_ne hj]
      exact (and_iff_right hj).symm
  have hmem : i ∈ Finset.univ.filter fun j => (d.pde j).isNone := by
    rw [Finset.mem_filter, h]
    exact ⟨Finset.mem_univ _, rfl⟩
  rw [Pgdir.vacant, herase]
  exact Finset.card_erase_add_one hmem

theorem Ample.mono (h : Ample k d s) (hs : u ≤ s) : Ample k d u :=
  ⟨h.1, Nat.le_trans (Nat.add_le_add_left hs _) h.2⟩

theorem kalloc_some (hdeny : k.deny = []) (hlen : n + 1 ≤ k.freelist.length) :
    ∃ k' p, kalloc k = (k', some p) ∧ k'.deny = [] ∧ n ≤ k'.freelist.length := by
  rw [kalloc, hdeny]
  cases hf : k.freelist with
  | nil =>
    rw [hf] at hlen
    exact absurd hlen (Nat.not_succ_le_zero _)
  | cons p ps =>
    rw [hf] at hlen
    exact ⟨_, p, rfl, rfl, Nat.le_of_succ_le_succ hlen⟩

theorem Ample.kalloc (h : Ample k d (s + 1)) :
    ∃ k' p, kalloc k = (k', some p) ∧ Ample k' d s := by
  have hle := h.2
  rw [← Nat.add_assoc] at hle
  obtain ⟨k', p, hk, hd, hn⟩ := kalloc_some h.1 hle
  exact ⟨k', p, hk, hd, hn⟩

theorem Ample.walkAlloc (h : Ample k d s) (a : Nat) :
    ∃ k' d', walkAlloc k d a = (k', d', true) ∧ Ample k' d' s ∧ (d'.pde (pdx a)).isSome := by
  rw [Vm.walkAlloc]
  cases he : d.pde (pdx a) with
  | some t => exact ⟨k, d, rfl, h, by rw [he]; rfl⟩
  | none =>
    obtain ⟨k', p, hk, hd, hn⟩ := kalloc_some (n := d.vacant - 1 + s) h.1 (by
      have hadd := vacant_add he ⟨0, fun _ => none⟩
      have hle := h.2
      omega)
    dsimp only
    rw [hk]
    refine ⟨k', _, rfl, ⟨hd, ?_⟩, ?_⟩
    · have hadd := vacant_add he ⟨p, fun _ => none⟩
      omega
    · dsimp only
      rw [update_self]
      rfl

theorem Ample.mapLoop (h : Ample k d s) (ho : mapLoop fuel k d a last p perm = .ok (k', d', r)) :
    r = 0 ∧ Ample k' d' s := by
  induction fuel generalizing k d a p with
  | zero => cases ho
  | succ fuel ih =>
    obtain ⟨k₁, d₁, hw, h₁, hs⟩ := h.walkAlloc a
    rw [Vm.mapLoop, hw] at ho
    dsimp only at ho
    split at ho
    · cases ho
    have hset : Ample k₁ (d₁.setPte a (some ⟨p, perm⟩)) s := by
      rw [Ample, vacant_setPte hs]
      exact h₁
    split at ho
    · cases ho
      exact ⟨rfl, hset⟩
    · exact ih hset ho

theorem Ample.mappages (h : Ample k d s) (ho : mappages k d va size p perm = .ok (k', d', r)) :
    r = 0 ∧ Ample k' d' s :=
  h.mapLoop ho

theorem Ample.allocLoop (h : Ample k d s) (hnew : newsz < kernBase) (hs : pagesUp newsz - u ≤ s)
    (ho : allocLoop L fuel k d (u * pgSize) oldsz newsz = .ok (k', d', r)) :
    r = newsz ∧ Ample k' d' (s - (pagesUp newsz - u)) := by
  have hup := pagesUp_le (Nat.le_of_lt hnew)
  simp only [nUser] at hup
  induction fuel generalizing k d u s with
  | zero => cases ho
  | succ fuel ih =>
    rw [Vm.allocLoop] at ho
    by_cases hu : newsz ≤ u * pgSize
    · rw [if_pos hu] at ho
      cases ho
      exact ⟨rfl, h.mono (Nat.sub_le _ _)⟩
    have hlt := (page_lt _ _).1 (Nat.lt_of_not_le hu)
    obtain ⟨s, rfl⟩ := Nat.exists_eq_succ_of_ne_zero (n := s) (by omega)
    obtain ⟨k₁, p, hk, h₁⟩ := h.kalloc
    rw [if_neg hu, hk] at ho
    dsimp only at ho
    obtain ⟨⟨k₂, d₂, r₂⟩, hm, ho⟩ := bind_ok ho
    obtain ⟨rfl, h₂⟩ := Ample.mappages (k := k₁.fill p 0) h₁ hm
    dsimp only at ho
    rw [if_neg (by decide), nextPage_page (by simp only [nPages]; omega)] at ho
    obtain ⟨hr, h₃⟩ := ih h₂ (by omega) ho
    refine ⟨hr, h₃.mono ?_⟩
    omega

theorem Ample.allocuvm (h : Ample k d s) (hle : oldsz ≤ newsz) (hnew : newsz < kernBase)
    (hs : pagesUp newsz - pagesUp oldsz ≤ s) (ho : allocuvm L k d oldsz newsz = .ok (k', d', r)) :
    r = newsz ∧ Ample k' d' (s - (pagesUp newsz - pagesUp oldsz)) := by
  rw [Vm.allocuvm, if_neg (Nat.not_le.2 hnew), if_neg (Nat.not_lt.2 hle), pgRoundUp_eq (by omega)] at ho
  exact h.allocLoop hnew hs ho

theorem Ample.mapKernel (h : Ample k d s) (ho : mapKernel L ms k d = .ok (k', o)) :
    ∃ d', o = some d' ∧ Ample k' d' s := by
  induction ms generalizing k d with
  | nil =>
    cases ho
    exact ⟨d, rfl, h⟩
  | cons m ms ih =>
    obtain ⟨⟨k₁, d₁, r⟩, hm, ho⟩ := bind_ok ho
    obtain ⟨rfl, h₁⟩ := h.mappages hm
    exact ih h₁ ho

theorem setupkvm_some (hdeny : k.deny = []) (hlen : 1025 + s ≤ k.freelist.length)
    (ho : setupkvm L k = .ok (k', o)) : ∃ d, o = some d ∧ Ample k' d s := by
  obtain ⟨k₁, p, hk, hd, hn⟩ := kalloc_some (n := 1024 + s) hdeny (by omega)
  rw [setupkvm, hk] at ho
  have h : Ample k₁ ⟨p, fun _ => none⟩ s :=
    ⟨hd, Nat.le_trans (Nat.add_le_add_right (vacant_le _) s) hn⟩
  exact h.mapKernel ho

theorem Ample.copyLoop (h : Ample k d s) (hsz : sz ≤ kernBase) (hs : pagesUp sz - u ≤ s)
    (ho : copyLoop L d₀ fuel k d (u * pgSize) sz = .ok (k', o)) : ∃ d', o = some d' := by
  have hup := pagesUp_le hsz
  simp only [nUser] at hup
  induction fuel generalizing k d u s with
  | zero => cases ho
  | succ fuel ih =>
    rw [Vm.copyLoop] at ho
    by_cases hu : sz ≤ u * pgSize
    · rw [if_pos hu] at ho
      cases ho
      exact ⟨d, rfl⟩
    have hlt := (page_lt _ _).1 (Nat.lt_of_not_le hu)
    rw [if_neg hu] at ho
    split at ho
    · cases ho
    split at ho
    · cases ho
    next e _ =>
    obtain ⟨s, rfl⟩ := Nat.exists_eq_succ_of_ne_zero (n := s) (by omega)
    obtain ⟨k₁, p, hk, h₁⟩ := h.kalloc
    rw [hk] at ho
    dsimp only at ho
    obtain ⟨⟨k₂, d₂, r₂⟩, hm, ho⟩ := bind_ok ho
    obtain ⟨rfl, h₂⟩ := Ample.mappages (k := k₁.copyPage p e.ppn) h₁ hm
    dsimp only at ho
    rw [if_neg (by decide), nextPage_page (by simp only [nPages]; omega)] at ho
    exact ih h₂ (by omega) ho

theorem copyuvm_some (hdeny : k.deny = []) (hsz : sz ≤ kernBase)
    (hlen : 1025 + pagesUp sz ≤ k.freelist.length) (ho : copyuvm L k d₀ sz = .ok (k', o)) :
    ∃ d, o = some d := by
  obtain ⟨⟨k₁, o₁⟩, hset, ho⟩ := bind_ok ho
  obtain ⟨d, rfl, h⟩ := setupkvm_some hdeny hlen hset
  exact h.copyLoop (u := 0) hsz (Nat.sub_le _ _) (by rwa [Nat.zero_mul])

end Xv6.Vm
