import Xv6.Vm.Dealloc

namespace Xv6.Vm
open Lib
set_option autoImplicit true

variable {L : Image} {k₀ k k₁ k' : Kmem} {d₀ d d' : Pgdir} {u w p lo hi oldsz newsz : Nat}
  {X : Multiset Nat}

/-- The pages from `lo` to `hi` are fresh zero pages; `X` are no longer free either. -/
structure Allocated (k k' : Kmem) (d d' : Pgdir) (lo hi : Nat) (X : Multiset Nat) : Prop where
  books : ∃ T : Multiset Nat, k.free = k'.free + (d'.mapped lo (hi - lo) : Multiset Nat) + T + X ∧
    d'.tables = d.tables + T
  page : d'.page = d.page
  inside : ∀ w, lo ≤ w → w < hi →
    ∃ p, d'.at w = some ⟨p, ⟨true, true⟩⟩ ∧ p ∈ k.free ∧ k'.data p = fun _ => 0
  outside : ∀ w, w < nPages → w < lo ∨ hi ≤ w → d'.at w = d.at w
  only : ∀ i, (d'.pde i).isSome → (d.pde i).isSome ∨ ∃ w, w < hi ∧ i = pdx (w * pgSize)
  data : ∀ p, p ∉ k.free → k'.data p = k.data p

/-- No entry has changed, though there may be new page tables. -/
structure Restored (k k' : Kmem) (d d' : Pgdir) (X : Multiset Nat) : Prop where
  books : ∃ T : Multiset Nat, k.free = k'.free + T + X ∧ d'.tables = d.tables + T
  page : d'.page = d.page
  same : ∀ w, w < nPages → d'.at w = d.at w
  data : ∀ p, p ∉ k.free → k'.data p = k.data p

theorem Allocated.refl (k : Kmem) (d : Pgdir) (lo : Nat) : Allocated k k d d lo lo 0 := by
  refine ⟨⟨0, ?_, (add_zero _).symm⟩, rfl, fun w h₁ h₂ => by omega, fun _ _ _ => rfl,
    fun _ hi => .inl hi, fun _ _ => rfl⟩
  rw [Nat.sub_self, add_zero, add_zero]
  exact (add_zero _).symm

theorem Allocated.mem (h : Allocated k₀ k d₀ d lo hi X) (hp : p ∈ k.free) : p ∈ k₀.free := by
  obtain ⟨T, hT, -⟩ := h.books
  rw [hT]
  simp only [Multiset.mem_add]
  exact .inl (.inl (.inl hp))

theorem Allocated.mem_mapped (h : Allocated k₀ k d₀ d lo hi X) (hp : p ∈ d.mapped lo (hi - lo)) :
    p ∈ k₀.free := by
  obtain ⟨T, hT, -⟩ := h.books
  rw [hT]
  simp only [Multiset.mem_add]
  exact .inl (.inl (.inr hp))

theorem Allocated.deny (h : Allocated k₀ k d₀ d lo hi X) (hf : k'.free = k.free)
    (hdata : k'.data = k.data) : Allocated k₀ k' d₀ d lo hi X := by
  obtain ⟨T, hT, hd⟩ := h.books
  refine ⟨⟨T, by rw [hT, hf], hd⟩, h.page, ?_, h.outside, h.only, ?_⟩
  · rw [hdata]
    exact h.inside
  · rw [hdata]
    exact h.data

theorem Allocated.take (h : Allocated k₀ k d₀ d lo hi 0) (hk : kalloc k = (k', some p)) :
    Allocated k₀ (k'.fill p 0) d₀ d lo hi {p} ∧ p ∈ k₀.free := by
  rcases kalloc_cases hk with ⟨hp, -⟩ | ⟨q, hp, hf, hdata⟩
  · cases hp
  cases hp
  obtain ⟨T, hT, hd⟩ := h.books
  have hfree : k.free = k'.free + {p} := by
    rw [Kmem.free, Kmem.free, hf, ← Multiset.cons_coe, add_comm, Multiset.singleton_add]
  have hfill (q : Nat) (hq : q ≠ p) : (k'.fill p 0).data q = k.data q := by
    rw [← hdata]
    exact Function.update_of_ne hq _ _
  have hself : (k'.fill p 0).data p = fun _ => 0 := Function.update_self ..
  have hmem : p ∈ k₀.free := by
    apply h.mem
    rw [hfree]
    exact Multiset.mem_add.2 (.inr (Multiset.mem_singleton_self p))
  refine ⟨⟨⟨T, ?_, hd⟩, h.page, ?_, h.outside, h.only, ?_⟩, hmem⟩
  · rw [hT, hfree]
    show _ = k'.free + _ + T + {p}
    abel
  · intro w h₁ h₂
    obtain ⟨q, hq, hm, hz⟩ := h.inside w h₁ h₂
    refine ⟨q, hq, hm, ?_⟩
    by_cases hqp : q = p
    · rw [hqp, hself]
    · rw [hfill q hqp, hz]
  · intro q hq
    rw [hfill q (fun he => hq (he ▸ hmem)), h.data q hq]

theorem Allocated.map {T' : Multiset Nat} (h : Allocated k₀ k d₀ d lo hi {p}) (hlo : lo ≤ hi) (hhi : hi < nPages)
    (hm : p ∈ k₀.free) (hz : k.data p = fun _ => 0)
    (he : Entered k k' d d' hi ⟨p, ⟨true, true⟩⟩ T') :
    Allocated k₀ k' d₀ d' lo (hi + 1) 0 := by
  obtain ⟨T, hT, hd⟩ := h.books
  have hsame : d'.mapped lo (hi - lo) = d.mapped lo (hi - lo) := by
    apply mapped_congr
    intro w h₁ h₂
    rw [he.entry w (by omega), if_neg (by omega)]
  have hmapped : d'.mapped lo (hi + 1 - lo) = d.mapped lo (hi - lo) ++ [p] := by
    rw [Nat.sub_add_comm hlo, mapped_succ, hsame, Nat.add_sub_cancel' hlo, he.entry hi hhi, if_pos rfl]
    rfl
  refine ⟨⟨T + T', ?_, ?_⟩, he.attach.page.trans h.page, ?_, ?_, ?_, ?_⟩
  · rw [hT, he.attach.free, hmapped, ← Multiset.coe_add, add_zero]
    rw [Multiset.coe_singleton]
    abel
  · rw [he.attach.tables, hd, add_assoc]
  · intro w h₁ h₂
    rw [he.data]
    by_cases hw : w = hi
    · exact ⟨p, by rw [he.entry w (by omega), if_pos hw], hm, hz⟩
    · rw [he.entry w (by omega), if_neg hw]
      exact h.inside w h₁ (by omega)
  · intro w hw hout
    rw [he.entry w hw, if_neg (by omega)]
    exact h.outside w hw (by omega)
  · intro i hi
    rcases he.only i hi with hi | rfl
    · exact (h.only i hi).imp_right fun ⟨w, hw, hi⟩ => ⟨w, by omega, hi⟩
    · exact .inr ⟨_, Nat.lt_succ_self _, rfl⟩
  · rw [he.data]
    exact h.data

theorem lt_of_pages (hlo : pagesUp oldsz ≤ u) (hu : u < pagesUp newsz) : oldsz < newsz := by
  have h₁ := (page_lt newsz u).2 hu
  have h₂ : oldsz ≤ u * pgSize := Nat.le_of_not_lt fun h => Nat.not_lt.2 hlo ((page_lt _ _).1 h)
  omega

theorem Allocated.undo (h : Allocated k₀ k d₀ d (pagesUp oldsz) u X) (hfree : ∀ p ∈ k₀.free, L.InRange p)
    (habsent : ∀ w, pagesUp oldsz ≤ w → w < pagesUp newsz → d₀.at w = none) (hnew : newsz ≤ kernBase)
    (hlt : oldsz < newsz) (hlo : pagesUp oldsz ≤ u) (hu : u ≤ pagesUp newsz) :
    ∃ k' d', deallocuvm L k d newsz oldsz = .ok (k', d', oldsz) ∧ Restored k₀ k' d₀ d' X := by
  have hup := pagesUp_le hnew
  have hpages {w : Nat} (hw : w < pagesUp newsz) : w < nPages :=
    Nat.lt_of_lt_of_le hw (Nat.le_trans hup (by decide))
  have hrest (w : Nat) (h₁ : u ≤ w) (h₂ : w < pagesUp newsz) : d.at w = none := by
    rw [h.outside w (hpages h₂) (.inr h₁)]
    exact habsent w (Nat.le_trans hlo h₁) h₂
  have hmapped : d.mapped (pagesUp oldsz) (pagesUp newsz - pagesUp oldsz) =
      d.mapped (pagesUp oldsz) (u - pagesUp oldsz) := mapped_trim hlo hu hrest
  have hrange : Ranged L d (pagesUp oldsz) (pagesUp newsz) := by
    intro w e h₁ h₂ he
    by_cases hw : w < u
    · obtain ⟨p, hp, hm, -⟩ := h.inside w h₁ hw
      obtain rfl := Option.some.inj (he.symm.trans hp)
      exact hfree p hm
    · rw [hrest w (Nat.le_of_not_lt hw) h₂] at he
      cases he
  obtain ⟨T, hT, hd⟩ := h.books
  refine ⟨_, _, deallocuvm_eq hlt hnew hrange, ⟨T, ?_, ?_⟩, h.page, ?_, ?_⟩
  · rw [hT, hmapped, free_release]
  · rw [tables_clear, hd]
  · intro w hw
    rw [at_clear hw]
    by_cases hin : pagesUp oldsz ≤ w ∧ w < pagesUp newsz
    · rw [if_pos hin, habsent w hin.1 hin.2]
    · rw [if_neg hin, h.outside w hw (by omega)]
  · intro p hp
    rw [hmapped, data_release, h.data p hp]
    exact fun hm => hp (h.mem_mapped hm)

theorem Restored.kfree (h : Restored k₀ k d₀ d {p}) (hp : p ∈ k₀.free) (hr : L.InRange p) :
    ∃ k', kfree L k p = .ok k' ∧ Restored k₀ k' d₀ d 0 := by
  obtain ⟨T, hT, hd⟩ := h.books
  refine ⟨_, kfree_ok hr k, ⟨T, ?_, hd⟩, h.page, h.same, ?_⟩
  · have hpush : (k.push p).free = k.free + {p} := free_release k [p]
    rw [hT, hpush]
    abel
  · intro q hq
    have hne : q ∉ [p] := by
      rintro hm
      rw [List.mem_singleton] at hm
      exact hq (hm ▸ hp)
    exact (data_release hne k).trans (h.data q hq)

theorem allocLoop_spec (hnew : newsz < kernBase) (hfree : ∀ p ∈ k₀.free, L.InRange p)
    (habsent : ∀ w, pagesUp oldsz ≤ w → w < pagesUp newsz → d₀.at w = none)
    (h : Allocated k₀ k d₀ d (pagesUp oldsz) u 0) (hlo : pagesUp oldsz ≤ u)
    (hu : u ≤ pagesUp newsz) (hfuel : pagesUp newsz - u < fuel) :
    ∃ k' d' r, allocLoop L fuel k d (u * pgSize) oldsz newsz = .ok (k', d', r) ∧
      (r = newsz ∧ Allocated k₀ k' d₀ d' (pagesUp oldsz) (pagesUp newsz) 0 ∨
        r = 0 ∧ Restored k₀ k' d₀ d' 0) := by
  induction fuel generalizing k d u with
  | zero => omega
  | succ fuel ih =>
    rw [allocLoop]
    by_cases hlt : u < pagesUp newsz
    · have hle := Nat.le_of_lt hnew
      have hpages : u < nPages :=
        Nat.lt_of_lt_of_le hlt (Nat.le_trans (pagesUp_le hle) (by decide))
      rw [if_neg (Nat.not_le.2 ((page_lt _ _).2 hlt))]
      match hk : kalloc k with
      | (k₁, none) =>
        rcases kalloc_cases hk with ⟨-, hf, hdata⟩ | ⟨p, hp, -⟩
        · have hdeny : Allocated k₀ k₁ d₀ d (pagesUp oldsz) u 0 :=
            h.deny (by rw [Kmem.free, hf, Kmem.free]) hdata
          obtain ⟨k', d', ho, hr⟩ := hdeny.undo hfree habsent hle (lt_of_pages hlo hlt) hlo
            (Nat.le_of_lt hlt)
          dsimp only
          rw [ho, ok_bind]
          exact ⟨k', d', 0, rfl, .inr ⟨rfl, hr⟩⟩
        · cases hp
      | (k₁, some p) =>
        obtain ⟨htake, hp⟩ := h.take hk
        have habs : d.at u = none := by
          rw [h.outside u hpages (.inr (Nat.le_refl _))]
          exact habsent u hlo hlt
        have hzero : (k₁.fill p 0).data p = fun _ => 0 := Function.update_self ..
        dsimp only
        rcases mapPage_spec (k := k₁.fill p 0) hpages habs p ⟨true, true⟩ with
          ⟨k', d', T', ho, he⟩ | ⟨k', ho, hf, hdata⟩
        · have hmap := htake.map hlo hpages hp hzero he
          rw [ho, ok_bind]
          dsimp only
          rw [if_neg (by decide), nextPage_page (by
            have hup := pagesUp_le hle
            simp only [nUser] at hup
            simp only [nPages]
            omega)]
          exact ih hmap (by omega) (by omega) (by omega)
        · obtain ⟨k₂, d₂, ho₂, hr⟩ := (htake.deny hf hdata).undo hfree habsent hle
            (lt_of_pages hlo hlt) hlo (Nat.le_of_lt hlt)
          obtain ⟨k₃, ho₃, hr⟩ := hr.kfree hp (hfree p hp)
          rw [ho, ok_bind]
          dsimp only
          rw [if_pos (by decide), ho₂, ok_bind]
          dsimp only
          rw [ho₃, ok_bind]
          exact ⟨k₃, d₂, 0, rfl, .inr ⟨rfl, hr⟩⟩
    · have heq : u = pagesUp newsz := by omega
      rw [if_pos (Nat.le_of_not_lt fun h => hlt ((page_lt _ _).1 h))]
      exact ⟨k, d, newsz, rfl, .inl ⟨rfl, heq ▸ h⟩⟩

theorem pagesUp_mono (h : oldsz ≤ newsz) : pagesUp oldsz ≤ pagesUp newsz :=
  Nat.div_le_div_right (Nat.add_le_add_right h _)

/-- `allocuvm` gives fresh zero pages to all new memory, or changes no entry. -/
theorem allocuvm_spec (hle : oldsz ≤ newsz) (hnew : newsz < kernBase)
    (hfree : ∀ p ∈ k.free, L.InRange p)
    (habsent : ∀ w, pagesUp oldsz ≤ w → w < pagesUp newsz → d.at w = none) :
    ∃ k' d' r, allocuvm L k d oldsz newsz = .ok (k', d', r) ∧
      (r = newsz ∧ Allocated k k' d d' (pagesUp oldsz) (pagesUp newsz) 0 ∨
        r = 0 ∧ Restored k k' d d' 0) := by
  rw [allocuvm, if_neg (Nat.not_le.2 hnew), if_neg (Nat.not_lt.2 hle), pgRoundUp_eq (by omega)]
  apply allocLoop_spec hnew hfree habsent (.refl k d _) (Nat.le_refl _) (pagesUp_mono hle)
  have hup := pagesUp_le (Nat.le_of_lt hnew)
  simp only [nUser] at hup
  simp only [nPages]
  omega

theorem absent_of_allocLoop (hnew : newsz < kernBase) (hr : r ≠ 0)
    (ho : allocLoop L fuel k d (u * pgSize) oldsz newsz = .ok (k', d', r)) (h₁ : u ≤ w)
    (h₂ : w < pagesUp newsz) : d.at w = none := by
  have hup := pagesUp_le (Nat.le_of_lt hnew)
  simp only [nUser] at hup
  induction fuel generalizing k d u with
  | zero => cases ho
  | succ fuel ih =>
    have hu : u < nPages := by
      simp only [nPages]
      omega
    rw [allocLoop, if_neg (Nat.not_le.2 ((page_lt _ _).2 (Nat.lt_of_le_of_lt h₁ h₂)))] at ho
    match hk : kalloc k with
    | (k₁, none) =>
      rw [hk] at ho
      obtain ⟨⟨k₂, d₂, n⟩, -, ho⟩ := bind_ok ho
      cases ho
      exact absurd rfl hr
    | (k₁, some p) =>
      rw [hk] at ho
      obtain ⟨⟨k₂, d₂, n⟩, hm, ho⟩ := bind_ok ho
      have habs := absent_of_mapPage hu hm
      dsimp only at ho
      by_cases hwu : w = u
      · rw [hwu, habs]
      split at ho
      · obtain ⟨⟨k₃, d₃, n⟩, -, ho⟩ := bind_ok ho
        obtain ⟨k₄, -, ho⟩ := bind_ok ho
        cases ho
        exact absurd rfl hr
      · next hn =>
        rw [nextPage_page (by simp only [nPages]; omega)] at ho
        rcases mapPage_spec (k := k₁.fill p 0) hu habs p ⟨true, true⟩ with
          ⟨k', d', T', ho', he⟩ | ⟨k', ho', -, -⟩
        · cases hm.symm.trans ho'
          have hnone := ih ho (by omega)
          rwa [he.entry w (by simp only [nPages]; omega), if_neg hwu] at hnone
        · cases hm.symm.trans ho'
          exact absurd (by decide) hn

theorem absent_of_allocuvm (hle : oldsz ≤ newsz) (hnew : newsz < kernBase) (hr : r ≠ 0)
    (ho : allocuvm L k d oldsz newsz = .ok (k', d', r)) (h₁ : pagesUp oldsz ≤ w)
    (h₂ : w < pagesUp newsz) : d.at w = none := by
  rw [allocuvm, if_neg (Nat.not_le.2 hnew), if_neg (Nat.not_lt.2 hle), pgRoundUp_eq (by omega)] at ho
  exact absent_of_allocLoop hnew hr ho h₁ h₂

theorem dealloc_alloc (hle : oldsz ≤ newsz) (hnew : newsz < kernBase)
    (hfree : ∀ p ∈ k.free, L.InRange p) (ho : allocuvm L k d oldsz newsz = .ok (k', d', newsz)) :
    ∃ k'' d'', deallocuvm L k' d' newsz oldsz = .ok (k'', d'', oldsz) ∧ Restored k k'' d d'' 0 := by
  by_cases hlt : oldsz < newsz
  · have habsent (w : Nat) (h₁ : pagesUp oldsz ≤ w) (h₂ : w < pagesUp newsz) : d.at w = none :=
      absent_of_allocuvm hle hnew (by omega) ho h₁ h₂
    obtain ⟨k₁, d₁, r, ho', hr⟩ := allocuvm_spec hle hnew hfree habsent
    cases ho.symm.trans ho'
    rcases hr with ⟨-, ha⟩ | ⟨hz, -⟩
    · exact ha.undo hfree habsent (Nat.le_of_lt hnew) hlt (pagesUp_mono hle) (Nat.le_refl _)
    · omega
  · obtain rfl : oldsz = newsz := by omega
    obtain ⟨k₁, d₁, r, ho', hr⟩ := allocuvm_spec (d := d) (Nat.le_refl _) hnew hfree
      fun w h₁ h₂ => by omega
    cases ho.symm.trans ho'
    rw [deallocuvm, if_pos (Nat.le_refl _)]
    refine ⟨k', d', rfl, ?_⟩
    rcases hr with ⟨-, ha⟩ | ⟨-, hr⟩
    · obtain ⟨T, hT, hd⟩ := ha.books
      refine ⟨⟨T, ?_, hd⟩, ha.page, fun w hw => ha.outside w hw (Nat.lt_or_ge _ _), ha.data⟩
      rw [hT, Nat.sub_self]
      exact congrArg (· + T + 0) (add_zero _)
    · exact hr

theorem Restored.conserve (h : Restored k k' d d' 0) : k.free + d.pages = k'.free + d'.pages := by
  obtain ⟨T, hT, hd⟩ := h.books
  have huser : d'.user = d.user := user_congr fun u hu => h.same u (Nat.lt_trans hu (by decide))
  rw [Pgdir.pages, Pgdir.pages, hT, hd, huser, h.page]
  abel

theorem Allocated.conserve (h : Allocated k k' d d' lo hi 0) (hle : lo ≤ hi) (hhi : hi ≤ nUser)
    (habsent : ∀ w, lo ≤ w → w < hi → d.at w = none) : k.free + d.pages = k'.free + d'.pages := by
  obtain ⟨T, hT, hd⟩ := h.books
  have hclear : (d'.clear lo hi).user = d.user := by
    apply user_congr
    intro w hw
    have hw' : w < nPages := Nat.lt_trans hw (by decide)
    rw [at_clear hw']
    by_cases hin : lo ≤ w ∧ w < hi
    · rw [if_pos hin, habsent w hin.1 hin.2]
    · rw [if_neg hin, h.outside w hw' (by omega)]
  have huser := @user_clear d' lo (hi - lo) (by omega)
  rw [Nat.add_sub_cancel' hle, hclear] at huser
  rw [Pgdir.pages, Pgdir.pages, hT, hd, ← huser, h.page]
  abel

theorem mem_mapped : p ∈ d.mapped lo n ↔ ∃ w e, lo ≤ w ∧ w < lo + n ∧ d.at w = some e ∧ e.ppn = p := by
  rw [Pgdir.mapped, List.mem_filterMap]
  constructor
  · rintro ⟨w, hw, he⟩
    obtain ⟨e, he, hp⟩ := Option.map_eq_some_iff.1 he
    have hw := List.mem_range'_1.1 hw
    exact ⟨w, e, hw.1, hw.2, he, hp⟩
  · rintro ⟨w, e, h₁, h₂, he, hp⟩
    exact ⟨w, List.mem_range'_1.2 ⟨h₁, h₂⟩, Option.map_eq_some_iff.2 ⟨e, he, hp⟩⟩

/-- No page is mapped twice in the user half. -/
def Pgdir.Distinct (d : Pgdir) : Prop :=
  ∀ u w e f, u < nUser → w < nUser → d.at u = some e → d.at w = some f → e.ppn = f.ppn → u = w

theorem Pgdir.Distinct.nodup_mapped (h : d.Distinct) (hn : lo + n ≤ nUser) : (d.mapped lo n).Nodup := by
  rw [Pgdir.mapped, List.Nodup, List.pairwise_filterMap]
  apply List.Pairwise.imp_of_mem _ List.nodup_range'
  intro u w hu hw hne p hp q hq hpq
  obtain ⟨e, he, rfl⟩ := Option.map_eq_some_iff.1 hp
  obtain ⟨f, hf, rfl⟩ := Option.map_eq_some_iff.1 hq
  have hu := (List.mem_range'_1.1 hu).2
  have hw := (List.mem_range'_1.1 hw).2
  exact hne (h u w e f (by omega) (by omega) he hf hpq)

/-- `deallocuvm` frees each page from `PGROUNDUP(newsz)` to `oldsz` once, and undoes `allocuvm`. -/
theorem deallocuvm_exact {L : Image} {k : Kmem} {d : Pgdir} (hpages : Ranged L d 0 nUser)
    (hdistinct : d.Distinct) (hfree : ∀ p ∈ k.free, L.InRange p) :
    (∀ oldsz newsz, newsz < oldsz → oldsz ≤ kernBase → ∃ k' d' ps,
      deallocuvm L k d oldsz newsz = .ok (k', d', newsz) ∧
      plainLoop L (nPages + 1) k d (pgRoundUp newsz) oldsz = .ok (k', d') ∧
      k'.freelist = ps ++ k.freelist ∧ ps.Nodup ∧
      (∀ p, p ∈ ps ↔ ∃ w e, pgRoundUp newsz ≤ w * pgSize ∧ w * pgSize < oldsz ∧ d.at w = some e ∧
        e.ppn = p) ∧
      (∀ w, w < nPages →
        d'.at w = if pgRoundUp newsz ≤ w * pgSize ∧ w * pgSize < oldsz then none else d.at w) ∧
      (∀ i, (d'.pde i).map Table.page = (d.pde i).map Table.page) ∧ d'.page = d.page ∧
      ∀ p, p ∉ ps → k'.data p = k.data p) ∧
    ∀ oldsz newsz k' d', oldsz ≤ newsz → newsz < kernBase →
      allocuvm L k d oldsz newsz = .ok (k', d', newsz) → ∃ k'' d'',
        deallocuvm L k' d' newsz oldsz = .ok (k'', d'', oldsz) ∧
        (∀ a, a < kernBase → d''.pte a = d.pte a) ∧
        ∃ T, k.free = k''.free + T ∧ d''.tables = d.tables + T := by
  constructor
  · intro oldsz newsz hlt hsz
    have hup := pagesUp_le hsz
    have hmono := pagesUp_mono (Nat.le_of_lt hlt)
    have hround : pgRoundUp newsz = pagesUp newsz * pgSize := pgRoundUp_eq (by omega)
    have hbounds (w : Nat) : (pgRoundUp newsz ≤ w * pgSize ∧ w * pgSize < oldsz) ↔
        pagesUp newsz ≤ w ∧ w < pagesUp oldsz := by
      rw [hround, page_lt, Nat.mul_le_mul_right_iff (by decide)]
    have hrange : Ranged L d (pagesUp newsz) (pagesUp oldsz) :=
      fun w e _ h₂ => hpages w e (Nat.zero_le _) (Nat.lt_of_lt_of_le h₂ hup)
    have hfuel : pagesUp oldsz - pagesUp newsz < nPages + 1 := by
      simp only [nUser] at hup
      simp only [nPages]
      omega
    refine ⟨_, _, (d.mapped (pagesUp newsz) (pagesUp oldsz - pagesUp newsz)).reverse,
      deallocuvm_eq hlt hsz hrange, ?_, freelist_release .., ?_, ?_, ?_, table_clear, rfl, ?_⟩
    · rw [hround]
      exact plainLoop_frees hsz hfuel hrange
    · rw [List.nodup_reverse]
      exact hdistinct.nodup_mapped (by omega)
    · intro p
      rw [List.mem_reverse, mem_mapped, Nat.add_sub_cancel' hmono]
      constructor
      · rintro ⟨w, e, h₁, h₂, he⟩
        obtain ⟨h₁, h₂⟩ := (hbounds w).2 ⟨h₁, h₂⟩
        exact ⟨w, e, h₁, h₂, he⟩
      · rintro ⟨w, e, h₁, h₂, he⟩
        obtain ⟨h₁, h₂⟩ := (hbounds w).1 ⟨h₁, h₂⟩
        exact ⟨w, e, h₁, h₂, he⟩
    · intro w hw
      simp only [at_clear hw, hbounds]
    · intro p hp
      rw [List.mem_reverse] at hp
      exact data_release hp k
  · intro oldsz newsz k' d' hle hnew ho
    obtain ⟨k'', d'', ho', hr⟩ := dealloc_alloc hle hnew hfree ho
    obtain ⟨T, hT, hd⟩ := hr.books
    rw [add_zero] at hT
    refine ⟨k'', d'', ho', fun a ha => ?_, T, hT, hd⟩
    rw [pte_page, pte_page, hr.same]
    simp only [kernBase] at ha
    simp only [nPages, pgSize]
    omega

def smallImage : Image := ⟨300, 310, by decide, by decide, by decide⟩

def onePage : Pgdir :=
  Pgdir.setPte ⟨320, fun i => if i = 0 then some ⟨321, fun _ => none⟩ else none⟩ (0 * pgSize)
    (some ⟨322, ⟨true, true⟩⟩)

theorem at_onePage (hw : w < nPages) :
    onePage.at w = if w = 0 then some ⟨322, ⟨true, true⟩⟩ else none := by
  rw [onePage, at_setPte (by decide) (by decide) hw, Pgdir.at, Pgdir.pte]
  congr 1
  dsimp only
  split <;> rfl

theorem eq_zero_of_onePage {e : Pte} (hw : w < nUser) (h : onePage.at w = some e) : w = 0 := by
  rw [at_onePage (Nat.lt_trans hw (by decide))] at h
  split at h
  · assumption
  · cases h

theorem ranged_onePage : Ranged smallImage onePage 0 nUser := by
  intro w e _ hw h
  obtain rfl := eq_zero_of_onePage hw h
  rw [at_onePage (by decide)] at h
  obtain rfl := Option.some.inj h
  decide

theorem deallocuvm_exact_onePage : ∃ k' d',
    deallocuvm smallImage ⟨[323], [], fun _ _ => 0⟩ onePage 4096 0 = .ok (k', d', 0) ∧
      322 ∈ k'.freelist ∧ d'.at 0 = none := by
  have hdistinct : onePage.Distinct := by
    intro u w e f hu hw he hf _
    rw [eq_zero_of_onePage hu he, eq_zero_of_onePage hw hf]
  have hexact := deallocuvm_exact (k := ⟨[323], [], fun _ _ => 0⟩) ranged_onePage hdistinct (by
    intro p hp
    rw [Kmem.free, Multiset.mem_coe, List.mem_singleton] at hp
    rw [hp]
    decide)
  obtain ⟨k', d', ps, ho, -, hfree, -, hps, hat, -⟩ := hexact.1 4096 0 (by decide) (by decide)
  refine ⟨k', d', ho, ?_, ?_⟩
  · rw [hfree]
    apply List.mem_append_left
    exact (hps 322).2 ⟨0, _, by decide, by decide, at_onePage (by decide), rfl⟩
  · rw [hat 0 (by decide), if_pos (by decide)]

end Xv6.Vm
