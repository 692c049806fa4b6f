import Xv6.Vm.Alloc

namespace Xv6.Vm
open Lib
set_option autoImplicit true

/-- `struct proc`, as far as memory goes. -/
structure Proc where
  pgdir : Pgdir
  sz : Nat

def addInt (a : Nat) (n : Int) : Nat := ((a + n) % 2 ^ 32).toNat

def growproc (L : Image) (k : Kmem) (p : Proc) (n : Int) : Except Fault (Kmem × Proc × Int) :=
  if 0 < n then do
    let (k, d, sz) ← allocuvm L k p.pgdir p.sz (addInt p.sz n)
    if sz = 0 then .ok (k, { p with pgdir := d }, -1) else .ok (k, ⟨d, sz⟩, 0)
  else if n < 0 then do
    let (k, d, sz) ← deallocuvm L k p.pgdir p.sz (addInt p.sz n)
    if sz = 0 then .ok (k, { p with pgdir := d }, -1) else .ok (k, ⟨d, sz⟩, 0)
  else .ok (k, p, 0)

/-- The pages of a process are those below its size. -/
structure Exact (p : Proc) : Prop where
  lt : p.sz < kernBase
  present : ∀ w, w < nUser → ((p.pgdir.at w).isSome ↔ w * pgSize < p.sz)

/-- No page is free or owned twice, and all are the allocator's. -/
def Owned (L : Image) (k : Kmem) (d : Pgdir) : Prop :=
  (k.free + d.pages).Nodup ∧ ∀ p ∈ k.free + d.pages, L.InRange p

variable {L : Image} {k k' : Kmem} {d d' : Pgdir} {p p' : Proc} {u w : Nat} {n : Int}

theorem mem_user_of_at {e : Pte} (hw : w < nUser) (h : d.at w = some e) : e.ppn ∈ d.user :=
  mem_user.2 ⟨w, e, hw, h, rfl⟩

theorem mem_pages_of_user (h : q ∈ d.user) : q ∈ d.pages := by
  rw [Pgdir.pages]
  exact Multiset.mem_add.2 (.inr h)

theorem distinct_of_nodup (h : d.user.Nodup) : d.Distinct := by
  intro u w e f hu hw he hf hef
  refine eq_of_nodup_sum (s := Finset.range nUser) (f := fun u => ofOption ((d.at u).map Pte.ppn))
    (a := e.ppn) ?_ (Finset.mem_range.2 hu) (Finset.mem_range.2 hw) ?_ ?_
  · rw [← Pgdir.user_eq]
    exact h
  · rw [mem_ofOption, he]
    rfl
  · rw [mem_ofOption, hf, hef]
    rfl

section Owned
variable (h : Owned L k d)
include h

theorem Owned.free : ∀ q ∈ k.free, L.InRange q :=
  fun q hq => h.2 q (Multiset.mem_add.2 (.inl hq))

theorem Owned.ranged : Ranged L d u nUser :=
  fun _ _ _ hw he => h.2 _ (Multiset.mem_add.2 (.inr (mem_pages_of_user (mem_user_of_at hw he))))

theorem Owned.distinct : d.Distinct := by
  have hnodup := (Multiset.nodup_add.1 h.1).2.1
  rw [Pgdir.pages] at hnodup
  exact distinct_of_nodup (Multiset.nodup_add.1 hnodup).2.1

theorem Owned.not_free {e : Pte} (hw : w < nUser) (he : d.at w = some e) : e.ppn ∉ k.free :=
  fun hf => Multiset.disjoint_left.1 (Multiset.nodup_add.1 h.1).2.2 hf
    (mem_pages_of_user (mem_user_of_at hw he))

end Owned

/-- The process has the size asked for, with its old pages and zeros. -/
structure Resized (k k' : Kmem) (p p' : Proc) (n : Int) : Prop where
  sz : (p'.sz : Int) = p.sz + n
  exact : Exact p'
  old : ∀ w e, w < nUser → w * pgSize < p'.sz → p.pgdir.at w = some e →
    p'.pgdir.at w = some e ∧ k'.data e.ppn = k.data e.ppn
  fresh : ∀ w, w < nUser → w * pgSize < p'.sz → p.pgdir.at w = none →
    ∃ e, p'.pgdir.at w = some e ∧ k'.data e.ppn = fun _ => 0

/-- The memory of the process is as before. -/
structure Unchanged (k k' : Kmem) (p p' : Proc) : Prop where
  sz : p'.sz = p.sz
  same : ∀ w, w < nUser → p'.pgdir.at w = p.pgdir.at w
  data : ∀ w e, w < nUser → p.pgdir.at w = some e → k'.data e.ppn = k.data e.ppn

theorem addInt_eq {a : Nat} (h₀ : 0 ≤ (a : Int) + n) (h₁ : (a : Int) + n < 2 ^ 32) :
    (addInt a n : Int) = a + n := by
  rw [addInt, Int.emod_eq_of_lt h₀ h₁, Int.toNat_of_nonneg h₀]

theorem Exact.at_none (h : Exact p) (hw : w < nUser) (hge : pagesUp p.sz ≤ w) : p.pgdir.at w = none := by
  rw [← Option.not_isSome_iff_eq_none, h.present w hw, page_lt]
  exact Nat.not_lt.2 hge

theorem growproc_grow (h : Exact p) (ho : Owned L k p.pgdir) (hn : 0 < n) (hmax : n < 2 ^ 31) :
    ∃ k' p' r, growproc L k p n = .ok (k', p', r) ∧
      (r = 0 ∧ (p.sz : Int) + n < kernBase ∧ Resized k k' p p' n ∨ r = -1 ∧ Unchanged k k' p p') := by
  have hlt := h.lt
  simp only [kernBase] at hlt
  have hadd := addInt_eq (a := p.sz) (n := n) (by omega) (by omega)
  rw [growproc, if_pos hn]
  generalize addInt p.sz n = newsz at hadd
  by_cases hnew : newsz < kernBase
  · have hle : p.sz ≤ newsz := by omega
    have hup := pagesUp_le (Nat.le_of_lt hnew)
    obtain ⟨k', d', r, hal, hr⟩ := allocuvm_spec hle hnew ho.free fun w h₁ h₂ =>
      h.at_none (Nat.lt_of_lt_of_le h₂ hup) h₁
    rw [hal, ok_bind]
    dsimp only
    rcases hr with ⟨rfl, ha⟩ | ⟨rfl, hr⟩
    · rw [if_neg (by omega)]
      refine ⟨k', _, 0, rfl, .inl ⟨rfl, by omega, hadd, ⟨hnew, ?_⟩, ?_, ?_⟩⟩
      · intro w hw
        show _ ↔ w * pgSize < r
        rw [page_lt]
        by_cases hin : pagesUp p.sz ≤ w ∧ w < pagesUp r
        · obtain ⟨q, hq, -⟩ := ha.inside w hin.1 hin.2
          exact iff_of_true (by rw [hq]; rfl) hin.2
        · rw [ha.outside w (Nat.lt_trans hw (by decide)) (by omega), h.present w hw, page_lt]
          have hmono := pagesUp_mono hle
          omega
      · intro w e hw _ he
        have hsome : w < pagesUp p.sz := by
          rw [← page_lt, ← h.present w hw, he]
          rfl
        rw [ha.outside w (Nat.lt_trans hw (by decide)) (.inl hsome)]
        exact ⟨he, ha.data _ (ho.not_free hw he)⟩
      · intro w hw hlt hnone
        have hge : pagesUp p.sz ≤ w := by
          rw [← Nat.not_lt, ← page_lt, ← h.present w hw, hnone]
          exact nofun
        obtain ⟨q, hq, -, hz⟩ := ha.inside w hge ((page_lt _ _).1 hlt)
        exact ⟨_, hq, hz⟩
    · rw [if_pos rfl]
      refine ⟨k', _, -1, rfl, .inr ⟨rfl, rfl, ?_, ?_⟩⟩
      · exact fun w hw => hr.same w (Nat.lt_trans hw (by decide))
      · exact fun w e hw he => hr.data _ (ho.not_free hw he)
  · rw [allocuvm, if_pos (Nat.le_of_not_lt hnew), ok_bind]
    dsimp only
    rw [if_pos rfl]
    exact ⟨k, p, -1, rfl, .inr ⟨rfl, rfl, fun _ _ => rfl, fun _ _ _ _ => rfl⟩⟩

theorem growproc_shrink (h : Exact p) (ho : Owned L k p.pgdir) (hn : n < 0) (hpos : 0 < (p.sz : Int) + n) :
    ∃ k' p', growproc L k p n = .ok (k', p', 0) ∧ Resized k k' p p' n := by
  have hlt := h.lt
  simp only [kernBase] at hlt
  have hadd := addInt_eq (a := p.sz) (n := n) (by omega) (by omega)
  rw [growproc, if_neg (by omega), if_pos hn]
  generalize addInt p.sz n = newsz at hadd
  have hle : newsz < p.sz := by omega
  have hsz := Nat.le_of_lt h.lt
  have hup := pagesUp_le hsz
  have hrange : Ranged L p.pgdir (pagesUp newsz) (pagesUp p.sz) :=
    fun w e h₁ h₂ => ho.ranged w e h₁ (Nat.lt_of_lt_of_le h₂ hup)
  rw [deallocuvm_eq hle hsz hrange, ok_bind]
  dsimp only
  rw [if_neg (by omega)]
  have hpages {w : Nat} (hw : w < nUser) : w < nPages := Nat.lt_trans hw (by decide)
  have hold (w : Nat) (hw : w < nUser) (hin : w < pagesUp newsz) :
      (p.pgdir.clear (pagesUp newsz) (pagesUp p.sz)).at w = p.pgdir.at w := by
    rw [at_clear (hpages hw), if_neg (by omega)]
  have hmono := pagesUp_mono (Nat.le_of_lt hle)
  refine ⟨_, _, rfl, hadd, ⟨?_, ?_⟩, ?_, ?_⟩
  · exact Nat.lt_trans hle h.lt
  · intro w hw
    show _ ↔ w * pgSize < newsz
    rw [page_lt]
    by_cases hin : w < pagesUp newsz
    · rw [hold w hw hin, h.present w hw, page_lt]
      omega
    · rw [at_clear (hpages hw)]
      by_cases hc : w < pagesUp p.sz
      · rw [if_pos (by omega)]
        exact iff_of_false nofun hin
      · rw [if_neg (by omega), h.present w hw, page_lt]
        omega
  · intro w e hw hlt he
    have hin : w < pagesUp newsz := (page_lt _ _).1 hlt
    rw [hold w hw hin]
    refine ⟨he, data_release ?_ k⟩
    intro hm
    obtain ⟨v, f, h₁, h₂, hf, hp⟩ := mem_mapped.1 hm
    have hvw := ho.distinct v w f e (by omega) hw hf he hp
    omega
  · intro w hw hlt hnone
    have hin : w < pagesUp newsz := (page_lt _ _).1 hlt
    have hsome := (h.present w hw).2 ((page_lt _ _).2 (Nat.lt_of_lt_of_le hin hmono))
    rw [hnone] at hsome
    cases hsome

theorem pages_onePage : onePage.pages = {320} + {321} + {322} := by
  have htables : onePage.tables = {321} := by
    rw [Pgdir.tables_eq, Finset.sum_eq_single 0]
    · rw [onePage, table_setPte (by decide)]
      rfl
    · intro i _ hi
      rw [onePage, table_setPte (by decide)]
      simp only [hi, ↓reduceIte]
      rfl
    · exact fun h => absurd (Finset.mem_univ _) h
  have huser : onePage.user = {322} := by
    rw [Pgdir.user_eq, Finset.sum_eq_single 0]
    · rw [at_onePage (by decide), if_pos rfl]
      rfl
    · intro u hu hne
      rw [at_onePage (Nat.lt_trans (Finset.mem_range.1 hu) (by decide)), if_neg hne]
      rfl
    · exact fun h => absurd (Finset.mem_range.2 (by decide)) h
  have hpage : onePage.page = 320 := page_setPte (by decide)
  rw [Pgdir.pages, htables, huser, hpage]

def onePageLeft : Kmem := ⟨[323], [], fun _ _ => 0⟩

theorem exact_onePage : Exact ⟨onePage, 4096⟩ := by
  refine ⟨by decide, fun w hw => ?_⟩
  rw [at_onePage (Nat.lt_trans hw (by decide))]
  show _ ↔ w * 4096 < 4096
  by_cases hz : w = 0
  · rw [if_pos hz, hz]
    decide
  · rw [if_neg hz]
    exact iff_of_false nofun (by omega)

end Xv6.Vm
