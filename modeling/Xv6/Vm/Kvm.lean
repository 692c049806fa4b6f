import Xv6.Vm.Growproc
import Mathlib.Algebra.BigOperators.Fin

namespace Xv6.Vm
open Lib
set_option autoImplicit true

variable {L : Image} {k₀ k k' : Kmem} {d d' : Pgdir} {u v w p : Nat}

theorem freeTables_spec (is : List (Fin 1024)) (hrange : ∀ p ∈ d.tables, L.InRange p) :
    ∃ k', freeTables L d is k = .ok k' ∧
      k'.free = k.free + (is.map fun i => ofOption ((d.pde i).map Table.page)).sum ∧
      ∀ p, p ∉ d.tables → k'.data p = k.data p := by
  induction is generalizing k with
  | nil => exact ⟨k, rfl, (add_zero _).symm, fun _ _ => rfl⟩
  | cons i is ih =>
    rw [freeTables, List.map_cons, List.sum_cons]
    cases ht : d.pde i with
    | none =>
      obtain ⟨k', ho, hf, hdata⟩ := ih (k := k)
      refine ⟨k', ho, ?_, hdata⟩
      rw [hf]
      exact congrArg _ (zero_add _).symm
    | some t =>
      have hmem : t.page ∈ d.tables := mem_tables.2 ⟨i, t, ht, rfl⟩
      obtain ⟨k', ho, hf, hdata⟩ := ih (k := k.push t.page)
      dsimp only
      rw [kfree_ok (hrange _ hmem), ok_bind]
      refine ⟨k', ho, ?_, ?_⟩
      · have hpush : (k.push t.page).free = k.free + {t.page} := free_release k [t.page]
        rw [hf, hpush, add_assoc]
        rfl
      · intro p hp
        have hne : p ∉ [t.page] := by
          intro hm
          rw [List.mem_singleton] at hm
          exact hp (hm ▸ hmem)
        rw [hdata p hp]
        exact data_release hne k

theorem user_clear_all : (d.clear 0 nUser).user = 0 := by
  rw [Pgdir.user_eq]
  apply Finset.sum_eq_zero
  intro u hu
  have hu := Finset.mem_range.1 hu
  rw [at_clear (Nat.lt_trans hu (by decide)), if_pos ⟨Nat.zero_le u, hu⟩]
  rfl

theorem mapped_all : (d.mapped 0 nUser : Multiset Nat) = d.user := by
  have hclear := @user_clear d 0 nUser (by decide)
  rwa [Nat.zero_add, user_clear_all, zero_add] at hclear

/-- `freevm` frees all pages that the directory owns. -/
theorem freevm_spec (hrange : ∀ p ∈ d.pages, L.InRange p) :
    ∃ k', freevm L k d = .ok k' ∧ k'.free = k.free + d.pages ∧
      ∀ p, p ∉ d.pages → k'.data p = k.data p := by
  have hmem {p : Nat} : p ∈ d.pages ↔ p = d.page ∨ p ∈ d.tables ∨ p ∈ d.user := by
    rw [Pgdir.pages, Multiset.mem_add, Multiset.mem_add, Multiset.mem_singleton, or_assoc]
  have hranged : Ranged L d (pagesUp 0) (pagesUp kernBase) := by
    intro w e _ hw he
    exact hrange _ (hmem.2 (.inr (.inr (mem_user_of_at hw he))))
  have hdealloc : deallocuvm L k d kernBase 0 =
      .ok (k.release (d.mapped 0 nUser), d.clear 0 nUser, 0) :=
    deallocuvm_eq (by decide) (Nat.le_refl _) hranged
  have htables : (d.clear 0 nUser).tables = d.tables := tables_clear
  obtain ⟨k', ho, hf, hdata⟩ := freeTables_spec (L := L) (k := k.release (d.mapped 0 nUser))
    (d := d.clear 0 nUser) (List.finRange 1024) (by
      rw [htables]
      exact fun p hp => hrange p (hmem.2 (.inr (.inl hp))))
  have hsum : ((List.finRange 1024).map fun i =>
      ofOption (((d.clear 0 nUser).pde i).map Table.page)).sum = d.tables := by
    rw [← htables, Pgdir.tables_eq, Fin.sum_univ_def]
  rw [htables] at hdata
  rw [freevm, hdealloc, ok_bind]
  dsimp only
  rw [ho, ok_bind]
  refine ⟨k'.push d.page, kfree_ok (hrange _ (hmem.2 (.inl rfl))) k', ?_, ?_⟩
  · have hpush : (k'.push d.page).free = k'.free + {d.page} := free_release k' [d.page]
    rw [hpush, hf, hsum, free_release, mapped_all, Pgdir.pages]
    abel
  · intro p hp
    rw [hmem, not_or, not_or] at hp
    have hne : p ∉ [d.page] := by
      rw [List.mem_singleton]
      exact hp.1
    have hpush : (k'.push d.page).data p = k'.data p := data_release hne k'
    refine hpush.trans ((hdata p hp.2.1).trans (data_release ?_ k))
    rw [← Multiset.mem_coe, mapped_all]
    exact hp.2.2

theorem freevm_back (hbooks : k₀.free = k.free + d.pages) (hfree : ∀ p ∈ k₀.free, L.InRange p)
    (hdata : ∀ p, p ∉ k₀.free → k.data p = k₀.data p) :
    ∃ k', freevm L k d = .ok k' ∧ k'.free = k₀.free ∧ ∀ p, p ∉ k₀.free → k'.data p = k₀.data p := by
  have hmem (p : Nat) (hp : p ∈ d.pages) : p ∈ k₀.free := by
    rw [hbooks]
    exact Multiset.mem_add.2 (.inr hp)
  obtain ⟨k', ho, hf, hd⟩ := freevm_spec (k := k) fun p hp => hfree p (hmem p hp)
  refine ⟨k', ho, hf.trans hbooks.symm, fun p hp => ?_⟩
  rw [hd p (fun hm => hp (hmem p hm)), hdata p hp]

def KernelPage (w : Nat) : Prop :=
  nUser ≤ w ∧ w < nUser + physTop / pgSize ∨ devSpace / pgSize ≤ w ∧ w < nPages

/-- The rows of a table map kernel pages one after the other, from `v` on. -/
inductive Regions : Nat → List Kmap → Prop where
  | nil {v : Nat} : Regions v []
  | cons {v u n : Nat} {m : Kmap} {ms : List Kmap} : v ≤ u → u + n < nPages → m.virt = u * pgSize →
      (m.physEnd + (2 ^ 32 - m.physStart)) % 2 ^ 32 = (n + 1) * pgSize → m.perm.u = false →
      (∀ w, u ≤ w → w ≤ u + n → KernelPage w) → Regions (u + n + 1) ms → Regions v (m :: ms)

theorem regions_kmap (L : Image) : Regions nUser (kmap L) := by
  have ht := L.text
  have hb := L.bss
  have hf := L.fits
  simp only [extMem, pgSize, physTop] at ht hf
  apply Regions.cons (u := nUser) (n := 255)
  · exact Nat.le_refl _
  · decide
  · decide
  · decide
  · rfl
  · intro w h₁ h₂
    simp only [KernelPage, nUser, physTop, pgSize] at h₁ h₂ ⊢
    omega
  apply Regions.cons (u := nUser + 256) (n := L.data - 257)
  · decide
  · simp only [nUser, nPages]
    omega
  · rfl
  · simp only [extMem, pgSize]
    omega
  · rfl
  · intro w h₁ h₂
    simp only [KernelPage, nUser, physTop, pgSize] at h₁ h₂ ⊢
    omega
  apply Regions.cons (u := nUser + L.data) (n := 57343 - L.data)
  · simp only [nUser]
    omega
  · simp only [nUser, nPages]
    omega
  · simp only [nUser, kernBase, pgSize]
    omega
  · simp only [physTop, pgSize]
    omega
  · rfl
  · intro w h₁ h₂
    simp only [KernelPage, nUser, physTop, pgSize] at h₁ h₂ ⊢
    omega
  apply Regions.cons (u := 1040384) (n := 8191)
  · simp only [nUser]
    omega
  · decide
  · decide
  · decide
  · rfl
  · intro w h₁ h₂
    simp only [KernelPage, nPages, devSpace, pgSize]
    omega
  exact .nil

def Kmap.Has (m : Kmap) (w : Nat) : Prop :=
  m.virt ≤ w * pgSize ∧ w * pgSize < m.virt + (m.physEnd + (2 ^ 32 - m.physStart)) % 2 ^ 32

theorem kmap_has (L : Image) (h : KernelPage w) : ∃ m ∈ kmap L, m.Has w := by
  have ht := L.text
  have hb := L.bss
  have hf := L.fits
  simp only [extMem, pgSize, physTop] at ht hf
  simp only [KernelPage, nUser, physTop, pgSize, devSpace, nPages] at h
  rw [kmap]
  simp only [List.mem_cons, List.not_mem_nil, or_false, exists_eq_or_imp, exists_eq_left, Kmap.Has,
    kernBase, extMem, physTop, devSpace, pgSize]
  omega

/-- The pages of the kernel are mapped, and not for user programs. -/
def Pgdir.Kernel (d : Pgdir) : Prop :=
  ∀ w, KernelPage w → ∃ e, d.at w = some e ∧ e.perm.u = false

theorem Pgdir.Kernel.congr (h : d.Kernel) (hat : ∀ w, nUser ≤ w → w < nPages → d'.at w = d.at w) :
    d'.Kernel := by
  intro w hw
  have hrange : nUser ≤ w ∧ w < nPages := by
    simp only [KernelPage, nUser, physTop, pgSize, devSpace, nPages] at hw
    simp only [nUser, nPages]
    omega
  rw [hat w hrange.1 hrange.2]
  exact h w hw

/-- A directory with kernel entries only, whose pages were free. -/
structure Kvm (k₀ k : Kmem) (d : Pgdir) : Prop where
  books : k₀.free = k.free + d.pages
  data : k.data = k₀.data
  user : ∀ w, w < nUser → d.at w = none
  only : ∀ i, (d.pde i).isSome → ∃ w, KernelPage w ∧ i = pdx (w * pgSize)

theorem user_eq_zero (h : ∀ w, w < nUser → d.at w = none) : d.user = 0 := by
  rw [Pgdir.user_eq]
  apply Finset.sum_eq_zero
  intro u hu
  rw [h u (Finset.mem_range.1 hu)]
  rfl

theorem Kvm.mapped {T : Multiset Nat} (h : Kvm k₀ k d) (hm : Mapped k k' d d' u n T) (hu : nUser ≤ u)
    (hk : ∀ w, u ≤ w → w ≤ u + n → KernelPage w) : Kvm k₀ k' d' := by
  have huser (w : Nat) (hw : w < nUser) : d'.at w = none := by
    rw [hm.others w (Nat.lt_trans hw (by decide)) (.inl (Nat.lt_of_lt_of_le hw hu)), h.user w hw]
  refine ⟨?_, hm.data.trans h.data, huser, ?_⟩
  · rw [h.books, hm.attach.free, Pgdir.pages, Pgdir.pages, user_eq_zero h.user, user_eq_zero huser,
      hm.attach.page, hm.attach.tables]
    abel
  · intro i hi
    rcases hm.only i hi with hi | ⟨w, h₁, h₂, hi⟩
    · exact h.only i hi
    · exact ⟨w, hk w h₁ h₂, hi⟩

theorem mapKernel_spec (hR : Regions v ms) (hv : nUser ≤ v) (hfree : ∀ p ∈ k₀.free, L.InRange p)
    (h : Kvm k₀ k d) (habsent : ∀ w, v ≤ w → w < nPages → d.at w = none) :
    ∃ k' o, mapKernel L ms k d = .ok (k', o) ∧ (∀ p, p ∉ k₀.free → k'.data p = k₀.data p) ∧
      (o = none → k'.free = k₀.free) ∧ ∀ d', o = some d' → Kvm k₀ k' d' ∧
        (∀ w, w < v → w < nPages → d'.at w = d.at w) ∧
        ∀ m ∈ ms, ∀ w, m.Has w → ∃ e, d'.at w = some e ∧ e.perm.u = false := by
  induction hR generalizing k d with
  | nil =>
    refine ⟨k, some d, rfl, fun p _ => by rw [h.data], nofun, ?_⟩
    rintro d' ⟨⟩
    exact ⟨h, fun _ _ _ => rfl, nofun⟩
  | @cons v u n m ms hvu hn hvirt hsize hperm hk hR ih =>
    obtain ⟨k₁, d₁, r, T, ho, hm, hr⟩ := mapLoop_spec (k := k) hn (by omega : n < nPages)
      (fun w h₁ h₂ => habsent w (by omega) (by omega)) (m.physStart / pgSize) m.perm
    have hkvm := h.mapped hm (Nat.le_trans hv hvu) hk
    rw [mapKernel, hvirt, hsize, mappages_pages hn, ho, ok_bind]
    dsimp only
    rcases hr with rfl | ⟨rfl, hat⟩
    · obtain ⟨k', hfv, hf, hdata⟩ := freevm_back hkvm.books hfree fun p _ => by rw [hkvm.data]
      rw [if_pos (by decide), hfv, ok_bind]
      exact ⟨k', none, rfl, hdata, fun _ => hf, nofun⟩
    · rw [if_neg (by decide)]
      have hnext (w : Nat) (h₁ : u + n + 1 ≤ w) (h₂ : w < nPages) : d₁.at w = none := by
        rw [hm.others w h₂ (by omega)]
        exact habsent w (by omega) h₂
      obtain ⟨k', o, ho', hdata, hnone, hsome⟩ := ih (by omega) hkvm hnext
      refine ⟨k', o, ho', hdata, hnone, fun d' hd' => ?_⟩
      obtain ⟨hkvm', hkept, hrows⟩ := hsome d' hd'
      refine ⟨hkvm', ?_, ?_⟩
      · intro w h₁ h₂
        rw [hkept w (by omega) h₂, hm.others w h₂ (by omega)]
      · intro m' hm' w hw
        rcases List.mem_cons.1 hm' with rfl | hm'
        · rw [Kmap.Has, hvirt, hsize, ← Nat.add_mul] at hw
          have h₁ : u ≤ w := Nat.le_of_mul_le_mul_right hw.1 (by decide)
          have h₂ : w < u + (n + 1) := Nat.lt_of_mul_lt_mul_right hw.2
          refine ⟨⟨m'.physStart / pgSize + (w - u), m'.perm⟩, ?_, hperm⟩
          rw [hkept w (by omega) (by omega), hat w h₁ (by omega)]
        · exact hrows m' hm' w hw

/-- `setupkvm` makes a kernel page directory, or returns 0 and has used no page. -/
theorem setupkvm_spec (hfree : ∀ p ∈ k.free, L.InRange p) :
    ∃ k' o, setupkvm L k = .ok (k', o) ∧ (∀ p, p ∉ k.free → k'.data p = k.data p) ∧
      (o = none → k'.free = k.free) ∧ ∀ d, o = some d → Kvm k k' d ∧ d.Kernel := by
  rw [setupkvm]
  cases hk : kalloc k with | mk k₁ o
  cases o with
  | none =>
    rcases kalloc_cases hk with ⟨-, hf, hdata⟩ | ⟨p, hp, -⟩
    · refine ⟨k₁, none, rfl, fun _ _ => by rw [hdata], fun _ => ?_, fun d hd => by cases hd⟩
      rw [Kmem.free, hf, Kmem.free]
    · cases hp
  | some p =>
    rcases kalloc_cases hk with ⟨hp, -⟩ | ⟨q, hp, hf, hdata⟩
    · cases hp
    cases hp
    have hnone (w : Nat) : Pgdir.at ⟨p, fun _ => none⟩ w = none := rfl
    have hkvm : Kvm k k₁ ⟨p, fun _ => none⟩ := by
      refine ⟨?_, hdata, fun w _ => hnone w, fun u hu => by cases hu⟩
      have htables : Pgdir.tables ⟨p, fun _ => none⟩ = 0 := by
        rw [Pgdir.tables_eq]
        exact Finset.sum_eq_zero fun _ _ => rfl
      rw [Pgdir.pages, htables, user_eq_zero fun w _ => hnone w, add_zero, add_zero, Kmem.free, hf,
        ← Multiset.cons_coe, add_comm, Multiset.singleton_add]
      rfl
    obtain ⟨k', o, ho, hd, hno, hsome⟩ :=
      mapKernel_spec (regions_kmap L) (Nat.le_refl _) hfree hkvm fun w _ _ => hnone w
    refine ⟨k', o, ho, hd, hno, fun d hd => ?_⟩
    obtain ⟨hkvm, -, hrows⟩ := hsome d hd
    refine ⟨hkvm, fun w hw => ?_⟩
    obtain ⟨m, hm, hhas⟩ := kmap_has L hw
    exact hrows m hm w hhas

end Xv6.Vm
