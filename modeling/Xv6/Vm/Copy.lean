import Xv6.Vm.Kvm
import Xv6.Vm.Plenty

namespace Xv6.Vm
open Lib Function
set_option autoImplicit true

variable {L : Image} {k₀ k k' : Kmem} {d₀ d d' : Pgdir} {u w p sz : Nat}

/-- The pages of the parent below `u` are copied; `X` are no longer free either. -/
structure Copied (k₀ k : Kmem) (d₀ d : Pgdir) (u : Nat) (X : Multiset Nat) : Prop where
  books : k₀.free = k.free + d.pages + X
  copy : ∀ w e, w < u → d₀.at w = some e →
    ∃ p, d.at w = some ⟨p, e.perm⟩ ∧ p ∈ d.user ∧ k.data p = k₀.data e.ppn
  rest : ∀ w, u ≤ w → w < nUser → d.at w = none
  kernel : d.Kernel
  data : ∀ p, p ∉ k₀.free → k.data p = k₀.data p

theorem Kvm.copied (h : Kvm k₀ k d) (hk : d.Kernel) (d₀ : Pgdir) : Copied k₀ k d₀ d 0 0 := by
  refine ⟨?_, nofun, fun w _ hw => h.user w hw, hk, fun p _ => by rw [h.data]⟩
  rw [add_zero]
  exact h.books

theorem Copied.take {e : Pte} (h : Copied k₀ k d₀ d u 0) (hnodup : k₀.free.Nodup)
    (hsrc : e.ppn ∉ k₀.free) (hk : kalloc k = (k', some p)) :
    Copied k₀ (k'.copyPage p e.ppn) d₀ d u {p} ∧ p ∈ k₀.free ∧
      (k'.copyPage p e.ppn).data p = k₀.data e.ppn := by
  rcases kalloc_cases hk with ⟨hp, -⟩ | ⟨q, hp, hf, hdata⟩
  · cases hp
  cases hp
  have hfree : k.free = k'.free + {p} := by
    rw [Kmem.free, Kmem.free, hf, ← Multiset.cons_coe, add_comm, Multiset.singleton_add]
  have hbooks : k₀.free = k'.free + d.pages + {p} := by
    rw [h.books, hfree]
    abel
  have hmem : p ∈ k₀.free := by
    rw [hbooks]
    exact Multiset.mem_add.2 (.inr (Multiset.mem_singleton_self p))
  have hother (q : Nat) (hq : q ≠ p) : (k'.copyPage p e.ppn).data q = k.data q := by
    rw [← hdata]
    exact update_of_ne hq _ _
  have hself : (k'.copyPage p e.ppn).data p = k₀.data e.ppn := by
    rw [← h.data _ hsrc, ← hdata]
    exact update_self ..
  have hnot : p ∉ d.pages := by
    rw [hbooks, Multiset.nodup_add] at hnodup
    intro hm
    exact Multiset.disjoint_left.1 hnodup.2.2 (Multiset.mem_add.2 (.inr hm))
      (Multiset.mem_singleton_self p)
  refine ⟨⟨hbooks, ?_, h.rest, h.kernel, ?_⟩, hmem, hself⟩
  · intro w f hw hf
    obtain ⟨q, hq, hu, hd⟩ := h.copy w f hw hf
    refine ⟨q, hq, hu, ?_⟩
    rw [hother q, hd]
    rintro rfl
    exact hnot (mem_pages_of_user hu)
  · intro q hq
    rw [hother q (fun he => hq (he ▸ hmem)), h.data q hq]

theorem Copied.map {e : Pte} {T : Multiset Nat} (h : Copied k₀ k d₀ d u {p}) (hu : u < nUser)
    (he : d₀.at u = some e) (hp : k.data p = k₀.data e.ppn)
    (hm : Entered k k' d d' u ⟨p, e.perm⟩ T) :
    Copied k₀ k' d₀ d' (u + 1) 0 := by
  have hlt {w : Nat} (hw : w < nUser) : w < nPages := Nat.lt_trans hw (by decide)
  have hself : d'.at u = some ⟨p, e.perm⟩ := by
    rw [hm.entry u (hlt hu), if_pos rfl]
  have hsum := @user_change d d' u hu fun w hw hne => by
    rw [hm.entry w (hlt hw), if_neg hne]
  have huser : d'.user = d.user + {p} := by
    rw [h.rest u (Nat.le_refl _) hu, hself] at hsum
    exact (add_zero _).symm.trans hsum
  refine ⟨?_, ?_, ?_, ?_, ?_⟩
  · rw [h.books, hm.attach.free, Pgdir.pages, Pgdir.pages, huser, hm.attach.page, hm.attach.tables]
    abel
  · intro w f hw hf
    rw [hm.data]
    by_cases hwu : w = u
    · subst hwu
      obtain rfl := Option.some.inj (he.symm.trans hf)
      refine ⟨p, hself, ?_, hp⟩
      rw [huser]
      exact Multiset.mem_add.2 (.inr (Multiset.mem_singleton_self p))
    · obtain ⟨q, hq, hqu, hd⟩ := h.copy w f (by omega) hf
      refine ⟨q, ?_, ?_, hd⟩
      · rw [hm.entry w (by simp only [nUser] at hu; simp only [nPages]; omega), if_neg hwu, hq]
      · rw [huser]
        exact Multiset.mem_add.2 (.inl hqu)
  · intro w h₁ h₂
    rw [hm.entry w (hlt h₂), if_neg (by omega)]
    exact h.rest w (by omega) h₂
  · exact h.kernel.congr fun w h₁ h₂ => by rw [hm.entry w h₂, if_neg (by omega)]
  · rw [hm.data]
    exact h.data

/-- What the loop of `copyuvm` and `copyuvm` itself return. -/
def Returns (k₀ : Kmem) (d₀ : Pgdir) (sz : Nat) (r : Except Fault (Kmem × Option Pgdir)) : Prop :=
  (∃ k' o, r = .ok (k', o) ∧ (∀ p, p ∉ k₀.free → k'.data p = k₀.data p) ∧
    (o = none → k'.free = k₀.free) ∧
    ∀ d, o = some d → sz ≤ kernBase ∧ Copied k₀ k' d₀ d (pagesUp sz) 0) ∨
  kernBase < sz ∧ r = .error (.panic "remap")

theorem Copied.empty (h : Copied k₀ k d₀ d u 0) (hfree : ∀ p ∈ k₀.free, L.InRange p)
    (hk : kalloc k = (k', none)) :
    ∃ k₁, freevm L k' d = .ok k₁ ∧ k₁.free = k₀.free ∧
      ∀ p, p ∉ k₀.free → k₁.data p = k₀.data p := by
  rcases kalloc_cases hk with ⟨-, hf, hdata⟩ | ⟨p, hp, -⟩
  · apply freevm_back _ hfree
    · rw [hdata]
      exact h.data
    · rw [h.books, add_zero, Kmem.free, Kmem.free, hf]
  · cases hp

theorem Copied.back (h : Copied k₀ k d₀ d u {p}) (hfree : ∀ p ∈ k₀.free, L.InRange p)
    (hp : p ∈ k₀.free) (hf : k'.free = k.free) (hdata : k'.data = k.data) :
    ∃ k₁, freevm L (k'.push p) d = .ok k₁ ∧ k₁.free = k₀.free ∧
      ∀ p, p ∉ k₀.free → k₁.data p = k₀.data p := by
  have hpush : (k'.push p).free = k'.free + {p} := free_release k' [p]
  apply freevm_back _ hfree
  · intro q hq
    have hne : q ∉ [p] := by
      intro hm
      rw [List.mem_singleton] at hm
      exact hq (hm ▸ hp)
    rw [← h.data q hq, ← hdata]
    exact data_release hne k'
  · rw [h.books, hpush, hf]
    abel

theorem copyLoop_spec (hpresent : ∀ w, w < pagesUp sz → (d₀.at w).isSome)
    (hfree : ∀ p ∈ k₀.free, L.InRange p) (hnodup : k₀.free.Nodup)
    (hsrc : ∀ w e, w < nUser → d₀.at w = some e → e.ppn ∉ k₀.free)
    (h : Copied k₀ k d₀ d u 0) (hu : u ≤ pagesUp sz) (hmax : u ≤ nUser) (hfuel : nUser - u < fuel) :
    Returns k₀ d₀ sz (copyLoop L d₀ fuel k d (u * pgSize) sz) := by
  induction fuel generalizing k d u with
  | zero => omega
  | succ fuel ih =>
    rw [copyLoop]
    by_cases hlt : u < pagesUp sz
    · obtain ⟨e, he⟩ := Option.isSome_iff_exists.1 (hpresent u hlt)
      have hentry : (d₀.pde (pdx (u * pgSize))).isSome :=
        isSome_of_at (Option.isSome_iff_exists.2 ⟨e, he⟩)
      have hat : d₀.pte (u * pgSize) = some e := he
      rw [if_neg (Nat.not_le.2 ((page_lt _ _).2 hlt)), if_neg (by
        rw [Option.isNone_iff_eq_none]
        exact Option.isSome_iff_ne_none.1 hentry), hat]
      dsimp only
      cases hk : kalloc k with | mk k₁ o
      cases o with
      | none =>
        obtain ⟨k', ho, hfr, hd⟩ := h.empty hfree hk
        dsimp only
        rw [ho, ok_bind]
        exact .inl ⟨k', none, rfl, hd, fun _ => hfr, fun d hd => by cases hd⟩
      | some p =>
        dsimp only
        by_cases huser : u < nUser
        · obtain ⟨htake, hp, hcopy⟩ := h.take hnodup (hsrc u e huser he) hk
          rcases mapPage_spec (k := k₁.copyPage p e.ppn) (Nat.lt_trans huser (by decide))
            (h.rest u (Nat.le_refl _) huser) p e.perm with
            ⟨k', d', T, ho, hm⟩ | ⟨k', ho, hf, hdata⟩
          · rw [ho, ok_bind]
            dsimp only
            rw [if_neg (by decide), nextPage_page (Nat.lt_of_le_of_lt huser (by decide))]
            exact ih (htake.map huser he hcopy hm) hlt huser (by omega)
          · obtain ⟨k₂, ho₂, hfr, hd⟩ := htake.back hfree hp hf hdata
            rw [ho, ok_bind]
            dsimp only
            rw [if_pos (by decide), kfree_ok (hfree p hp), ok_bind, ho₂, ok_bind]
            exact .inl ⟨k₂, none, rfl, hd, fun _ => hfr, fun d hd => by cases hd⟩
        · obtain rfl : u = nUser := Nat.le_antisymm hmax (Nat.le_of_not_lt huser)
          refine .inr ⟨(page_lt _ _).2 hlt, ?_⟩
          obtain ⟨e, he, -⟩ := h.kernel nUser (.inl ⟨Nat.le_refl _, by decide⟩)
          rw [mapPage_remap (by decide) (Option.isSome_iff_exists.2 ⟨e, he⟩)]
          rfl
    · have heq : u = pagesUp sz := by omega
      rw [if_pos (Nat.le_of_not_lt fun h => hlt ((page_lt _ _).1 h))]
      refine .inl ⟨k, some d, rfl, h.data, fun hd => (by cases hd), ?_⟩
      rintro d' ⟨⟩
      refine ⟨?_, heq ▸ h⟩
      by_contra hbig
      have hsz := (page_lt sz nUser).1 (Nat.lt_of_not_le hbig)
      omega

/-- `copyuvm` copies the user pages, or returns 0 and has used no page. -/
theorem copyuvm_spec (hpresent : ∀ w, w < pagesUp sz → (d₀.at w).isSome) (ho : Owned L k d₀) :
    Returns k d₀ sz (copyuvm L k d₀ sz) := by
  obtain ⟨k₁, o, hset, hdata, hnone, hsome⟩ := setupkvm_spec ho.free
  rw [copyuvm, hset, ok_bind]
  cases o with
  | none => exact .inl ⟨k₁, none, rfl, hdata, hnone, nofun⟩
  | some d =>
    obtain ⟨hkvm, hkernel⟩ := hsome d rfl
    have hloop : Returns k d₀ sz (copyLoop L d₀ (nPages + 1) k₁ d (0 * pgSize) sz) :=
      copyLoop_spec hpresent ho.free (Multiset.nodup_add.1 ho.1).1
        (fun w e hw he => ho.not_free hw he) (hkvm.copied hkernel d₀) (Nat.zero_le _) (Nat.zero_le _) (by decide)
    rwa [Nat.zero_mul] at hloop

def store (d : Pgdir) (k : Kmem) (x : Nat × UInt8) : Kmem :=
  match d.pte x.1 with
  | none => k
  | some e => { k with
      data := update k.data e.ppn (update (k.data e.ppn) (x.1 % pgSize) x.2) }

/-- No page is mapped in the user half of both. -/
def Apart (d d' : Pgdir) : Prop := ∀ p, p ∈ d.user → p ∉ d'.user

theorem pte_user {e : Pte} (ha : a < kernBase) (h : d.pte a = some e) : e.ppn ∈ d.user := by
  rw [pte_page] at h
  apply mem_user_of_at _ h
  simp only [kernBase] at ha
  simp only [nUser, pgSize]
  omega

theorem Apart.load_store (h : Apart d d') (xs : List (Nat × UInt8)) (hxs : ∀ x ∈ xs, x.1 < kernBase)
    (ha : a < kernBase) : load (xs.foldl (store d) k) d' a = load k d' a := by
  induction xs generalizing k with
  | nil => rfl
  | cons x xs ih =>
    rw [List.foldl_cons, ih fun y hy => hxs y (List.mem_cons_of_mem _ hy), store]
    cases hx : d.pte x.1 with
    | none => rfl
    | some e =>
      rw [load, load]
      cases hy : d'.pte a with
      | none => rfl
      | some f =>
        have hne : f.ppn ≠ e.ppn := by
          intro he
          exact h e.ppn (pte_user (hxs x List.mem_cons_self) hx) (he ▸ pte_user ha hy)
        simp only [Option.map_some, update_of_ne hne]

/-- The copy has bytes and flags of the original, on its own pages, and neither sees writes through
the other; a failed `copyuvm` uses no page. -/
theorem copyuvm_isolates {L : Image} {k : Kmem} {d₀ : Pgdir} {sz : Nat}
    (hpresent : ∀ a, a < sz → (d₀.pte a).isSome) (ho : Owned L k d₀) :
    (sz ≤ kernBase → ∃ r, copyuvm L k d₀ sz = .ok r) ∧
    ∀ k' o, copyuvm L k d₀ sz = .ok (k', o) →
      (∀ a, a < kernBase → load k' d₀ a = load k d₀ a) ∧ (o = none → k'.free = k.free) ∧
      ∀ d, o = some d →
        (∀ a, a < sz → load k' d a = load k d₀ a ∧
          (d.pte a).map Pte.perm = (d₀.pte a).map Pte.perm) ∧
        (∀ a, pgRoundUp sz ≤ a → a < kernBase → d.pte a = none) ∧ d.Distinct ∧
        (∀ d' : Pgdir, (∀ p, p ∈ d'.user → p ∉ k.free) → Apart d d') ∧
        k.free = k'.free + d.pages ∧
        ∀ xs : List (Nat × UInt8), (∀ x ∈ xs, x.1 < kernBase) → ∀ a, a < kernBase →
          load (xs.foldl (store d) k') d₀ a = load k' d₀ a ∧
          load (xs.foldl (store d₀) k') d a = load k' d a := by
  have hpages (w : Nat) (hw : w < pagesUp sz) : (d₀.at w).isSome :=
    hpresent (w * pgSize) ((page_lt _ _).2 hw)
  have hspec := copyuvm_spec hpages ho
  refine ⟨?_, ?_⟩
  · intro hsz
    rcases hspec with ⟨k', o, hcopy, -⟩ | ⟨hbig, -⟩
    · exact ⟨_, hcopy⟩
    · omega
  intro k' o hcopy
  obtain ⟨hdata, hnone, hsome⟩ : (∀ p, p ∉ k.free → k'.data p = k.data p) ∧
      (o = none → k'.free = k.free) ∧
      ∀ d, o = some d → sz ≤ kernBase ∧ Copied k k' d₀ d (pagesUp sz) 0 := by
    rcases hspec with ⟨k₁, o₁, hcopy₁, h⟩ | ⟨-, hpanic⟩
    · cases hcopy.symm.trans hcopy₁
      exact h
    · cases hcopy.symm.trans hpanic
  have hold (a : Nat) (ha : a < kernBase) : load k' d₀ a = load k d₀ a := by
    rw [load, load]
    cases he : d₀.pte a with
    | none => rfl
    | some e =>
      have hnf : e.ppn ∉ k.free := fun hf => Multiset.disjoint_left.1
        (Multiset.nodup_add.1 ho.1).2.2 hf (mem_pages_of_user (pte_user ha he))
      rw [Option.map_some, Option.map_some, hdata _ hnf]
  refine ⟨hold, hnone, fun d hd => ?_⟩
  obtain ⟨hsz, hc⟩ := hsome d hd
  have hbooks : k.free = k'.free + d.pages := by
    rw [hc.books, add_zero]
  have hapart (d' : Pgdir) (hd' : ∀ p, p ∈ d'.user → p ∉ k.free) : Apart d d' := by
    intro p hp hp'
    apply hd' p hp'
    rw [hbooks]
    exact Multiset.mem_add.2 (.inr (mem_pages_of_user hp))
  have hparent : Apart d d₀ := by
    apply hapart
    intro p hp
    obtain ⟨w, e, hw, he, rfl⟩ := mem_user.1 hp
    exact ho.not_free hw he
  have hchild : Apart d₀ d := fun p hp hp' => hparent p hp' hp
  refine ⟨?_, ?_, ?_, hapart, hbooks, ?_⟩
  · intro a ha
    obtain ⟨e, he⟩ := Option.isSome_iff_exists.1 (hpresent a ha)
    have hat : d₀.at (a / pgSize) = some e := by
      rw [← pte_page, he]
    have hlt : a / pgSize < pagesUp sz := by
      rw [← page_lt]
      simp only [pgSize]
      omega
    obtain ⟨p, hp, -, hcp⟩ := hc.copy (a / pgSize) e hlt hat
    have hpte : d.pte a = some ⟨p, e.perm⟩ := by
      rw [pte_page, hp]
    rw [load, load, hpte, he, Option.map_some, Option.map_some, hcp]
    exact ⟨rfl, rfl⟩
  · intro a h₁ h₂
    rw [pgRoundUp_eq hsz] at h₁
    rw [pte_page]
    simp only [kernBase] at h₂
    apply hc.rest
    · simp only [pgSize] at h₁ ⊢
      omega
    · simp only [nUser, pgSize]
      omega
  · have hnodup := (Multiset.nodup_add.1 ho.1).1
    rw [hbooks, Multiset.nodup_add, Pgdir.pages, Multiset.nodup_add] at hnodup
    exact distinct_of_nodup hnodup.2.1.2.1
  · intro xs hxs a ha
    exact ⟨hparent.load_store xs hxs ha, hchild.load_store xs hxs ha⟩

def manyLeft : Kmem := ⟨List.range' 400 2000, [], fun p _ => UInt8.ofNat p⟩

theorem owned_manyLeft : Owned smallImage manyLeft onePage := by
  have hmem {p : Nat} : p ∈ manyLeft.free ↔ 400 ≤ p ∧ p < 2400 := List.mem_range'_1
  have hfresh {p : Nat} (hp : p ∈ manyLeft.free) : p ∉ ({320} + {321} + {322} : Multiset Nat) := by
    have hlow : ∀ q ∈ ({320} + {321} + {322} : Multiset Nat), q < 400 := by decide
    intro hq
    have hlt := hlow p hq
    have hge := (hmem.1 hp).1
    omega
  refine ⟨?_, ?_⟩
  · rw [pages_onePage, Multiset.nodup_add]
    exact ⟨List.nodup_range', by decide, Multiset.disjoint_left.2 hfresh⟩
  · rw [pages_onePage]
    intro p hp
    rcases Multiset.mem_add.1 hp with hp | hp
    · have hp := hmem.1 hp
      simp only [Image.InRange, smallImage, physTop, pgSize]
      omega
    · have hin : ∀ q ∈ ({320} + {321} + {322} : Multiset Nat), smallImage.InRange q := by decide
      exact hin p hp

theorem copyuvm_isolates_onePage : ∃ k' d, copyuvm smallImage manyLeft onePage 4096 = .ok (k', some d) ∧
    load k' d 0 = some 66 ∧ (d.pte 0).map Pte.perm = some ⟨true, true⟩ := by
  have hpresent (a : Nat) (ha : a < 4096) : (onePage.pte a).isSome := by
    rw [pte_page, Nat.div_eq_of_lt ha, at_onePage (by decide)]
    rfl
  obtain ⟨hok, hret⟩ := copyuvm_isolates hpresent owned_manyLeft
  obtain ⟨⟨k', o⟩, hcopy⟩ := hok (by decide)
  obtain ⟨d, rfl⟩ := copyuvm_some rfl (by decide) (by
    rw [manyLeft, List.length_range']
    decide) hcopy
  obtain ⟨-, -, hsome⟩ := hret k' _ hcopy
  obtain ⟨hload, hperm⟩ := (hsome d rfl).1 0 (by decide)
  refine ⟨k', d, hcopy, hload.trans ?_, hperm.trans ?_⟩
  · rw [load, pte_page, at_onePage (by decide)]
    rfl
  · rw [pte_page, at_onePage (by decide)]
    rfl

end Xv6.Vm
