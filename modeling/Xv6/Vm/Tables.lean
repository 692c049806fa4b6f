import Xv6.Vm.Paging
import Xv6.Lib.Exec
import Xv6.Lib.Tracks
import Mathlib.Data.Multiset.Basic

namespace Xv6.Vm
open Lib Function
set_option autoImplicit true

variable {k k' : Kmem} {d d' : Pgdir} {u w p : Nat} {e : Option Pte} {L : Image}

def Pgdir.at (d : Pgdir) (u : Nat) : Option Pte := d.pte (u * pgSize)

theorem pdx_page (u : Nat) : (pdx (u * pgSize)).val = u / 1024 % 1024 := by
  simp only [pdx, pgSize]
  omega

theorem ptx_page (u : Nat) : (ptx (u * pgSize)).val = u % 1024 := by
  simp only [ptx, pgSize]
  omega

theorem page_inj (hu : u < nPages) (hw : w < nPages) (hd : pdx (u * pgSize) = pdx (w * pgSize))
    (ht : ptx (u * pgSize) = ptx (w * pgSize)) : u = w := by
  have hd := congrArg Fin.val hd
  have ht := congrArg Fin.val ht
  rw [pdx_page, pdx_page] at hd
  rw [ptx_page, ptx_page] at ht
  simp only [nPages] at hu hw
  omega

theorem pte_page (d : Pgdir) (va : Nat) : d.pte va = d.at (va / pgSize) := by
  have hd : pdx (va / pgSize * pgSize) = pdx va := by
    apply Fin.ext
    rw [pdx_page]
    simp only [pdx, pgSize]
    omega
  have ht : ptx (va / pgSize * pgSize) = ptx va := by
    apply Fin.ext
    exact ptx_page _
  rw [Pgdir.at, Pgdir.pte, Pgdir.pte, hd, ht]

def load (k : Kmem) (d : Pgdir) (va : Nat) : Option UInt8 :=
  (d.pte va).map fun e => k.data e.ppn (va % pgSize)

theorem nextPage_page (h : u + 1 < nPages) : nextPage (u * pgSize) = (u + 1) * pgSize := by
  simp only [nPages] at h
  simp only [nextPage, pgSize]
  omega

theorem at_of_none (h : (d.pde (pdx (u * pgSize))).isNone) : d.at u = none := by
  rw [Option.isNone_iff_eq_none] at h
  rw [Pgdir.at, Pgdir.pte, h]
  rfl

theorem isSome_of_at (h : (d.at u).isSome) : (d.pde (pdx (u * pgSize))).isSome := by
  by_contra hn
  rw [at_of_none (Option.isNone_iff_eq_none.2 (Option.not_isSome_iff_eq_none.1 hn))] at h
  cases h

section SetPte
variable (hs : (d.pde (pdx (u * pgSize))).isSome)
include hs

theorem at_setPte (hu : u < nPages) (hw : w < nPages) :
    (d.setPte (u * pgSize) e).at w = if w = u then e else d.at w := by
  obtain ⟨t, ht⟩ := Option.isSome_iff_exists.1 hs
  rw [Pgdir.setPte, ht, Pgdir.at, Pgdir.pte]
  dsimp only
  by_cases hd : pdx (w * pgSize) = pdx (u * pgSize)
  · rw [hd, update_self, Option.bind_some]
    dsimp only
    by_cases hp : ptx (w * pgSize) = ptx (u * pgSize)
    · rw [if_pos (page_inj hw hu hd hp), hp, update_self]
    · have hne : w ≠ u := by
        rintro rfl
        exact hp rfl
      rw [if_neg hne, update_of_ne hp, Pgdir.at, Pgdir.pte, hd, ht, Option.bind_some]
  · have hne : w ≠ u := by
      rintro rfl
      exact hd rfl
    rw [if_neg hne, update_of_ne hd, Pgdir.at, Pgdir.pte]

theorem page_setPte : (d.setPte (u * pgSize) e).page = d.page := by
  obtain ⟨t, ht⟩ := Option.isSome_iff_exists.1 hs
  rw [Pgdir.setPte, ht]

theorem table_setPte (i : Fin 1024) :
    ((d.setPte (u * pgSize) e).pde i).map Table.page = (d.pde i).map Table.page := by
  obtain ⟨t, ht⟩ := Option.isSome_iff_exists.1 hs
  rw [Pgdir.setPte, ht]
  dsimp only
  by_cases hi : i = pdx (u * pgSize)
  · rw [hi, update_self, ht]
    rfl
  · rw [update_of_ne hi]

end SetPte

def Kmem.free (k : Kmem) : Multiset Nat := k.freelist

/-- The pages of an optional thing that is in a page. -/
def ofOption (o : Option Nat) : Multiset Nat := o.toList

def Pgdir.tables (d : Pgdir) : Multiset Nat := ∑ i, ofOption ((d.pde i).map Table.page)

/-- The pages that a directory maps in the user half. -/
def Pgdir.user (d : Pgdir) : Multiset Nat :=
  ∑ u ∈ Finset.range nUser, ofOption ((d.at u).map Pte.ppn)

theorem Pgdir.tables_eq (d : Pgdir) : d.tables = ∑ i, ofOption ((d.pde i).map Table.page) := rfl

theorem Pgdir.user_eq (d : Pgdir) :
    d.user = ∑ u ∈ Finset.range nUser, ofOption ((d.at u).map Pte.ppn) := rfl

attribute [irreducible] Pgdir.tables Pgdir.user

/-- The pages that a directory owns. -/
def Pgdir.pages (d : Pgdir) : Multiset Nat := {d.page} + d.tables + d.user

theorem mem_ofOption (o : Option Nat) (p : Nat) : p ∈ ofOption o ↔ o = some p := by
  rw [ofOption, Multiset.mem_coe, Option.mem_toList]

theorem mem_tables : p ∈ d.tables ↔ ∃ i t, d.pde i = some t ∧ t.page = p := by
  simp only [Pgdir.tables_eq, Multiset.mem_sum, Finset.mem_univ, true_and, mem_ofOption,
    Option.map_eq_some_iff]

theorem mem_user : p ∈ d.user ↔ ∃ u e, u < nUser ∧ d.at u = some e ∧ e.ppn = p := by
  simp only [Pgdir.user_eq, Multiset.mem_sum, Finset.mem_range, mem_ofOption, Option.map_eq_some_iff]
  constructor
  · rintro ⟨u, hu, e, he, hp⟩
    exact ⟨u, e, hu, he, hp⟩
  · rintro ⟨u, e, hu, he, hp⟩
    exact ⟨u, hu, e, he, hp⟩

theorem tables_congr (h : ∀ i, (d'.pde i).map Table.page = (d.pde i).map Table.page) :
    d'.tables = d.tables := by
  rw [Pgdir.tables_eq, Pgdir.tables_eq]
  apply Finset.sum_congr rfl
  intro i _
  rw [h i]

theorem tables_setPte (hs : (d.pde (pdx (u * pgSize))).isSome) :
    (d.setPte (u * pgSize) e).tables = d.tables := by
  apply tables_congr
  exact table_setPte hs

theorem user_congr (h : ∀ u, u < nUser → d'.at u = d.at u) : d'.user = d.user := by
  rw [Pgdir.user_eq, Pgdir.user_eq]
  apply Finset.sum_congr rfl
  intro u hu
  rw [h u (Finset.mem_range.1 hu)]

theorem user_change (hu : u < nUser) (h : ∀ w, w < nUser → w ≠ u → d'.at w = d.at w) :
    d'.user + ofOption ((d.at u).map Pte.ppn) = d.user + ofOption ((d'.at u).map Pte.ppn) := by
  rw [Pgdir.user_eq, Pgdir.user_eq]
  refine sum_change (f := fun w => ofOption ((d'.at w).map Pte.ppn))
    (g := fun w => ofOption ((d.at w).map Pte.ppn)) (Finset.mem_range.2 hu) ?_
  intro w hw hne
  rw [h w (Finset.mem_range.1 hw) hne]

theorem kalloc_cases (h : kalloc k = (k', o)) :
    (o = none ∧ k'.freelist = k.freelist ∧ k'.data = k.data) ∨
    ∃ p, o = some p ∧ k.freelist = p :: k'.freelist ∧ k'.data = k.data := by
  rw [kalloc] at h
  split at h
  · cases h
    exact .inl ⟨rfl, rfl, rfl⟩
  · split at h
    · cases h
      exact .inl ⟨rfl, rfl, rfl⟩
    · next p ps hps =>
      cases h
      exact .inr ⟨p, rfl, hps, rfl⟩

/-- The pages `T` have gone from the free list into new page tables. -/
structure Attach (k k' : Kmem) (d d' : Pgdir) (T : Multiset Nat) : Prop where
  free : k.free = k'.free + T
  tables : d'.tables = d.tables + T
  page : d'.page = d.page
  kept : ∀ i, (d.pde i).isSome → (d'.pde i).isSome

theorem Attach.refl (hf : k'.freelist = k.freelist) : Attach k k' d d 0 := by
  refine ⟨?_, ?_, rfl, fun _ h => h⟩
  · rw [Kmem.free, Kmem.free, hf, add_zero]
  · rw [add_zero]

theorem Attach.trans {k₁ : Kmem} {d₁ : Pgdir} {T T' : Multiset Nat} (h : Attach k k₁ d d₁ T)
    (h' : Attach k₁ k' d₁ d' T') : Attach k k' d d' (T + T') := by
  refine ⟨?_, ?_, h'.page.trans h.page, fun i hi => h'.kept i (h.kept i hi)⟩
  · rw [h.free, h'.free, add_assoc, add_comm T']
  · rw [h'.tables, h.tables, add_assoc]

structure Walked (k k' : Kmem) (d d' : Pgdir) (u : Nat) (found : Bool) (T : Multiset Nat) : Prop where
  attach : Attach k k' d d' T
  data : k'.data = k.data
  same : ∀ w, d'.at w = d.at w
  entry : found = true → (d'.pde (pdx (u * pgSize))).isSome
  failed : found = false → T = 0 ∧ d' = d
  only : ∀ i, (d'.pde i).isSome → (d.pde i).isSome ∨ i = pdx (u * pgSize)

theorem walkAlloc_spec (h : walkAlloc k d (u * pgSize) = (k', d', found)) :
    ∃ T, Walked k k' d d' u found T := by
  rw [walkAlloc] at h
  split at h
  · next t ht =>
    cases h
    refine ⟨0, .refl rfl, rfl, fun _ => rfl, fun _ => ?_, nofun, fun _ h => .inl h⟩
    rw [ht]
    rfl
  · next hn =>
    split at h
    · next k₁ hk =>
      cases h
      rcases kalloc_cases hk with ⟨-, hf, hdata⟩ | ⟨p, hp, -⟩
      · exact ⟨0, .refl hf, hdata, fun _ => rfl, nofun, fun _ => ⟨rfl, rfl⟩, fun _ h => .inl h⟩
      · cases hp
    · next k₁ p hk =>
      cases h
      rcases kalloc_cases hk with ⟨hp, -⟩ | ⟨q, hp, hf, hdata⟩
      · cases hp
      cases hp
      refine ⟨{p}, ⟨?_, ?_, rfl, ?_⟩, hdata, ?_, fun _ => ?_, nofun, ?_⟩
      · rw [Kmem.free, Kmem.free, hf, ← Multiset.cons_coe, add_comm, Multiset.singleton_add]
      · have hsum := sum_change (s := Finset.univ) (i := pdx (u * pgSize))
          (f := fun i => ofOption ((update d.pde (pdx (u * pgSize))
            (some ⟨p, fun _ => none⟩) i).map Table.page))
          (g := fun i => ofOption ((d.pde i).map Table.page)) (Finset.mem_univ _) (by
            intro i _ hi
            rw [update_of_ne hi])
        rw [hn, update_self] at hsum
        rw [Pgdir.tables_eq, Pgdir.tables_eq]
        exact (add_zero _).symm.trans hsum
      · intro i hi
        dsimp only
        by_cases he : i = pdx (u * pgSize)
        · rw [he, update_self]
          rfl
        · rwa [update_of_ne he]
      · intro w
        rw [Pgdir.at, Pgdir.at, Pgdir.pte, Pgdir.pte]
        dsimp only
        by_cases he : pdx (w * pgSize) = pdx (u * pgSize)
        · rw [he, update_self, hn]
          rfl
        · rw [update_of_ne he]
      · dsimp only
        rw [update_self]
        rfl
      · intro i hi
        by_cases he : i = pdx (u * pgSize)
        · exact .inr he
        · dsimp only at hi
          rw [update_of_ne he] at hi
          exact .inl hi

/-- What `mappages` does for `n` pages from `u` on, or some of them. -/
structure Mapped (k k' : Kmem) (d d' : Pgdir) (u n : Nat) (T : Multiset Nat) : Prop where
  attach : Attach k k' d d' T
  data : k'.data = k.data
  others : ∀ w, w < nPages → w < u ∨ u + n < w → d'.at w = d.at w
  only : ∀ i, (d'.pde i).isSome → (d.pde i).isSome ∨ ∃ w, u ≤ w ∧ w ≤ u + n ∧ i = pdx (w * pgSize)

theorem Walked.map {T : Multiset Nat} (h : Walked k k' d d' u true T) (hu : u < nPages) (x : Pte) :
    Mapped k k' d (d'.setPte (u * pgSize) (some x)) u 0 T := by
  have hs := h.entry rfl
  have hsome (i : Fin 1024) : ((d'.setPte (u * pgSize) (some x)).pde i).isSome = (d'.pde i).isSome := by
    rw [← Option.isSome_map (f := Table.page), table_setPte hs, Option.isSome_map]
  refine ⟨⟨h.attach.free, ?_, ?_, ?_⟩, h.data, ?_, ?_⟩
  · rw [tables_setPte hs, h.attach.tables]
  · rw [page_setPte hs, h.attach.page]
  · intro i hi
    rw [hsome]
    exact h.attach.kept i hi
  · intro w hw hne
    rw [at_setPte hs hu hw, if_neg (by omega), h.same]
  · intro i hi
    rw [hsome] at hi
    exact (h.only i hi).imp_right fun hi => ⟨u, Nat.le_refl _, Nat.le_refl _, hi⟩

theorem Mapped.cons {k₁ : Kmem} {d₁ : Pgdir} {T T' : Multiset Nat} (h : Mapped k k₁ d d₁ u 0 T)
    (h' : Mapped k₁ k' d₁ d' (u + 1) n T') : Mapped k k' d d' u (n + 1) (T + T') := by
  refine ⟨h.attach.trans h'.attach, h'.data.trans h.data, ?_, ?_⟩
  · intro w hw hne
    rw [h'.others w hw (by omega), h.others w hw (by omega)]
  · intro i hi
    rcases h'.only i hi with hi | ⟨w, h₁, h₂, hi⟩
    · rcases h.only i hi with hi | ⟨w, h₁, h₂, hi⟩
      · exact .inl hi
      · exact .inr ⟨w, h₁, by omega, hi⟩
    · exact .inr ⟨w, by omega, by omega, hi⟩

theorem Walked.mapped {T : Multiset Nat} (h : Walked k k' d d' u false T) (n : Nat) :
    Mapped k k' d d' u n T := by
  obtain ⟨-, rfl⟩ := h.failed rfl
  exact ⟨h.attach, h.data, fun _ _ _ => rfl, fun i hi => .inl hi⟩

theorem mapLoop_round (fuel : Nat) (k : Kmem) (habsent : d.at u = none) (last p : Nat) (perm : Perm) :
    (∃ k', Walked k k' d d u false 0 ∧
      mapLoop (fuel + 1) k d (u * pgSize) last p perm = .ok (k', d, -1)) ∨
    ∃ k' d' T, Walked k k' d d' u true T ∧
      mapLoop (fuel + 1) k d (u * pgSize) last p perm =
        if u * pgSize = last then .ok (k', d'.setPte (u * pgSize) (some ⟨p, perm⟩), 0)
        else mapLoop fuel k' (d'.setPte (u * pgSize) (some ⟨p, perm⟩)) (nextPage (u * pgSize)) last
          (p + 1) perm := by
  rw [mapLoop]
  match hw : walkAlloc k d (u * pgSize) with
  | (k', d', found) =>
    obtain ⟨T, hT⟩ := walkAlloc_spec hw
    cases found with
    | false =>
      obtain ⟨rfl, rfl⟩ := hT.failed rfl
      exact .inl ⟨k', hT, rfl⟩
    | true =>
      have hnone : (d'.pte (u * pgSize)).isSome = false := by
        show (d'.at u).isSome = false
        rw [hT.same, habsent]
        rfl
      refine .inr ⟨k', d', T, hT, ?_⟩
      dsimp only
      rw [hnone, if_neg (by decide)]

theorem mapLoop_spec (hn : u + n < nPages) (hfuel : n < fuel)
    (habsent : ∀ w, u ≤ w → w ≤ u + n → d.at w = none) (p : Nat) (perm : Perm) :
    ∃ k' d' r T, mapLoop fuel k d (u * pgSize) ((u + n) * pgSize) p perm = .ok (k', d', r) ∧
      Mapped k k' d d' u n T ∧ (r = -1 ∨
        r = 0 ∧ ∀ w, u ≤ w → w ≤ u + n → d'.at w = some ⟨p + (w - u), perm⟩) := by
  induction n generalizing fuel k d u p with
  | zero =>
    obtain ⟨fuel, rfl⟩ := Nat.exists_eq_succ_of_ne_zero (Nat.ne_of_gt hfuel)
    rw [Nat.add_zero] at hn ⊢
    rcases mapLoop_round fuel k (habsent u (Nat.le_refl _) (Nat.le_refl _)) (u * pgSize) p perm with
      ⟨k', hT, ho⟩ | ⟨k', d', T, hT, ho⟩
    · exact ⟨k', d, -1, 0, ho, hT.mapped 0, .inl rfl⟩
    · rw [if_pos rfl] at ho
      refine ⟨k', _, 0, T, ho, hT.map hn ⟨p, perm⟩, .inr ⟨rfl, ?_⟩⟩
      intro w h₁ h₂
      obtain rfl : w = u := Nat.le_antisymm h₂ h₁
      rw [at_setPte (hT.entry rfl) hn hn, if_pos rfl, Nat.sub_self, Nat.add_zero]
  | succ n ih =>
    obtain ⟨fuel, rfl⟩ := Nat.exists_eq_succ_of_ne_zero (n := fuel) (by omega)
    rcases mapLoop_round fuel k (habsent u (Nat.le_refl _) (by omega))
      ((u + (n + 1)) * pgSize) p perm with ⟨k', hT, ho⟩ | ⟨k₁, d₁, T, hT, ho⟩
    · exact ⟨k', d, -1, 0, ho, hT.mapped _, .inl rfl⟩
    · have hu : u < nPages := by omega
      have hne : u * pgSize ≠ (u + (n + 1)) * pgSize := by
        simp only [pgSize]
        omega
      rw [if_neg hne, nextPage_page (by omega)] at ho
      have hfirst := hT.map hu ⟨p, perm⟩
      have hself := at_setPte (e := some ⟨p, perm⟩) (hT.entry rfl) hu hu
      have hrest (w : Nat) (h₁ : u + 1 ≤ w) (h₂ : w ≤ u + 1 + n) :
          (d₁.setPte (u * pgSize) (some ⟨p, perm⟩)).at w = none := by
        rw [hfirst.others w (by omega) (by omega)]
        exact habsent w (by omega) (by omega)
      obtain ⟨k', d', r, T', ho', hm, hr⟩ := ih (k := k₁) (u := u + 1) (by omega)
        (Nat.lt_of_succ_lt_succ hfuel) hrest (p + 1)
      rw [Nat.add_right_comm] at ho'
      refine ⟨k', d', r, T + T', ho.trans ho', hfirst.cons hm, hr.imp_right ?_⟩
      rintro ⟨hr, hat⟩
      refine ⟨hr, fun w h₁ h₂ => ?_⟩
      by_cases hwu : w = u
      · subst hwu
        rw [hm.others w hu (by omega), hself, if_pos rfl, Nat.sub_self, Nat.add_zero]
      · rw [hat w (by omega) (by omega)]
        congr 2
        omega

theorem pgRoundDown_page (u : Nat) : pgRoundDown (u * pgSize) = u * pgSize := by
  simp only [pgRoundDown, pgSize]
  omega

theorem mappages_pages (hn : u + n < nPages) (k : Kmem) (d : Pgdir) (p : Nat) (perm : Perm) :
    mappages k d (u * pgSize) ((n + 1) * pgSize) p perm =
      mapLoop nPages k d (u * pgSize) ((u + n) * pgSize) p perm := by
  have hlast : pgRoundDown ((u * pgSize + (n + 1) * pgSize + (2 ^ 32 - 1)) % 2 ^ 32) =
      (u + n) * pgSize := by
    simp only [nPages] at hn
    simp only [pgRoundDown, pgSize]
    omega
  rw [mappages, pgRoundDown_page, hlast]

/-- Page `u` has been given the entry `e`. -/
structure Entered (k k' : Kmem) (d d' : Pgdir) (u : Nat) (e : Pte) (T : Multiset Nat) : Prop where
  attach : Attach k k' d d' T
  data : k'.data = k.data
  entry : ∀ w, w < nPages → d'.at w = if w = u then some e else d.at w
  only : ∀ i, (d'.pde i).isSome → (d.pde i).isSome ∨ i = pdx (u * pgSize)

theorem mapPage_spec (hu : u < nPages) (habsent : d.at u = none) (p : Nat) (perm : Perm) :
    (∃ k' d' T, mappages k d (u * pgSize) pgSize p perm = .ok (k', d', 0) ∧
      Entered k k' d d' u ⟨p, perm⟩ T) ∨
    ∃ k', mappages k d (u * pgSize) pgSize p perm = .ok (k', d, -1) ∧ k'.free = k.free ∧
      k'.data = k.data := by
  have hpages := mappages_pages (n := 0) hu k d p perm
  rw [Nat.zero_add, Nat.one_mul, Nat.add_zero] at hpages
  rw [hpages]
  rcases mapLoop_round (nPages - 1) k habsent (u * pgSize) p perm with ⟨k', hT, ho⟩ |
    ⟨k', d', T, hT, ho⟩
  · right
    have hfree := hT.attach.free
    rw [add_zero] at hfree
    exact ⟨k', ho, hfree.symm, hT.data⟩
  · left
    rw [if_pos rfl] at ho
    have hm := hT.map hu ⟨p, perm⟩
    refine ⟨k', _, T, ho, hm.attach, hm.data, fun w hw => ?_, fun i hi => ?_⟩
    · rw [at_setPte (hT.entry rfl) hu hw, hT.same]
    · rcases hm.only i hi with hold | ⟨w, h₁, h₂, hnew⟩
      · exact .inl hold
      · obtain rfl : w = u := Nat.le_antisymm h₂ h₁
        exact .inr hnew

theorem mapPage_remap (hu : u < nPages) (hs : (d.at u).isSome) (p : Nat) (perm : Perm) :
    mappages k d (u * pgSize) pgSize p perm = .error (.panic "remap") := by
  have hpages := mappages_pages (n := 0) hu k d p perm
  rw [Nat.zero_add, Nat.one_mul, Nat.add_zero] at hpages
  rw [hpages]
  show mapLoop (1048575 + 1) k d (u * pgSize) (u * pgSize) p perm = _
  rw [mapLoop]
  obtain ⟨t, ht⟩ := Option.isSome_iff_exists.1 (isSome_of_at hs)
  simp only [walkAlloc, ht]
  exact if_pos hs

theorem absent_of_mapPage (hu : u < nPages)
    (ho : mappages k d (u * pgSize) pgSize p perm = .ok (k', d', r)) : d.at u = none := by
  by_contra hsome
  rw [mapPage_remap hu (Option.isSome_iff_ne_none.2 hsome)] at ho
  cases ho

end Xv6.Vm
