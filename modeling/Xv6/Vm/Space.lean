import Xv6.Vm.Exec
import Xv6.Vm.Kvm

namespace Xv6.Vm
open Lib Function
set_option autoImplicit true

/-- The pages of a directory were free in `k₀`, and no other page is written. -/
structure Held (L : Image) (k₀ k : Kmem) (d : Pgdir) : Prop where
  nodup : k₀.free.Nodup
  range : ∀ p ∈ k₀.free, L.InRange p
  books : k₀.free = k.free + d.pages
  data : ∀ p, p ∉ k₀.free → k.data p = k₀.data p

/-- A directory that maps the pages below `sz`, with bytes `f`, for users where `u`. -/
structure Space (L : Image) (k₀ k : Kmem) (d : Pgdir) (sz : Nat) (f : Nat → UInt8) (u : Nat → Bool) :
    Prop extends Held L k₀ k d where
  lt : sz < kernBase
  pages : ∀ w, w < pagesUp sz →
    ∃ p, d.at w = some ⟨p, ⟨true, u w⟩⟩ ∧ ∀ o, o < pgSize → k.data p o = f (w * pgSize + o)
  rest : ∀ w, pagesUp sz ≤ w → w < nUser → d.at w = none
  beyond : ∀ a, pagesUp sz * pgSize ≤ a → f a = 0
  kernel : d.Kernel
  hole : ∀ i, (d.pde i).isSome → i.val < 512 ∨ ∃ w, KernelPage w ∧ i = pdx (w * pgSize)

variable {L : Image} {k₀ k k' : Kmem} {d d' : Pgdir} {sz newsz w o n : Nat} {f : Nat → UInt8}
  {u : Nat → Bool} {bs : List UInt8}

section Held
variable (h : Held L k₀ k d)
include h

theorem Held.freevm :
    ∃ k', freevm L k d = .ok k' ∧ k'.free = k₀.free ∧ ∀ p, p ∉ k₀.free → k'.data p = k₀.data p :=
  freevm_back h.books h.range h.data

theorem Held.mem_pages (hp : p ∈ d.pages) : p ∈ k₀.free := by
  rw [h.books]
  exact Multiset.mem_add.2 (.inr hp)

theorem Held.mem_free (hp : p ∈ k.free) : p ∈ k₀.free := by
  rw [h.books]
  exact Multiset.mem_add.2 (.inl hp)

theorem Held.not_free (hp : p ∈ d.pages) : p ∉ k.free := by
  have hnodup := h.nodup
  rw [h.books, Multiset.nodup_add] at hnodup
  exact fun hf => Multiset.disjoint_left.1 hnodup.2.2 hf hp

theorem Held.distinct : d.Distinct := by
  have hnodup := h.nodup
  rw [h.books, Multiset.nodup_add, Pgdir.pages, Multiset.nodup_add] at hnodup
  exact distinct_of_nodup hnodup.2.1.2.1

theorem Held.conserve (hc : k.free + d.pages = k'.free + d'.pages)
    (hdata : ∀ p, p ∉ k.free → k'.data p = k.data p) : Held L k₀ k' d' := by
  refine ⟨h.nodup, h.range, h.books.trans hc, fun p hp => ?_⟩
  rw [hdata p (fun hf => hp (h.mem_free hf)), h.data p hp]

end Held

theorem Kvm.space (h : Kvm k₀ k d) (hk : d.Kernel) (hnodup : k₀.free.Nodup)
    (hrange : ∀ p ∈ k₀.free, L.InRange p) (u : Nat → Bool) : Space L k₀ k d 0 (fun _ => 0) u := by
  refine ⟨⟨hnodup, hrange, h.books, fun p _ => by rw [h.data]⟩, by decide, ?_, ?_, fun _ _ => rfl, hk, ?_⟩
  · intro w hw
    exact absurd hw (Nat.not_lt_zero w)
  · exact fun w _ hw => h.user w hw
  · exact fun i hi => .inr (h.only i hi)

section Space
variable (h : Space L k₀ k d sz f u)
include h

theorem Space.user_lt (hw : w < pagesUp sz) : w < nUser :=
  Nat.lt_of_lt_of_le hw (pagesUp_le (Nat.le_of_lt h.lt))

theorem Space.entry (hw : w < pagesUp sz) :
    ∃ p, d.at w = some ⟨p, ⟨true, u w⟩⟩ ∧ (d.pde (pdx (w * pgSize))).isSome ∧ p ∈ d.pages ∧
      ∀ o, o < pgSize → k.data p o = f (w * pgSize + o) := by
  obtain ⟨p, hp, hf⟩ := h.pages w hw
  have hsome : (d.at w).isSome := by
    rw [hp]
    rfl
  exact ⟨p, hp, isSome_of_at hsome, mem_pages_of_user (mem_user_of_at (h.user_lt hw) hp), hf⟩

theorem Space.at_none (hw : pagesUp sz ≤ w) (hlt : w < pagesUp newsz) (hnew : newsz < kernBase) :
    d.at w = none :=
  h.rest w hw (Nat.lt_of_lt_of_le hlt (pagesUp_le (Nat.le_of_lt hnew)))

theorem Space.grow (ha : Allocated k k' d d' (pagesUp sz) (pagesUp newsz) 0) (hle : sz ≤ newsz)
    (hnew : newsz < kernBase) (hu : ∀ w, pagesUp sz ≤ w → u w = true) : Space L k₀ k' d' newsz f u := by
  have hmono := pagesUp_mono hle
  have hmax := pagesUp_le (Nat.le_of_lt hnew)
  have hpage {w : Nat} (hw : w < nUser) : w < nPages := Nat.lt_trans hw (by decide)
  have hconserve := ha.conserve hmono hmax fun w h₁ h₂ => h.at_none h₁ h₂ hnew
  refine ⟨h.toHeld.conserve hconserve ha.data, hnew, ?_, ?_, ?_, ?_, ?_⟩
  · intro w hw
    by_cases hold : w < pagesUp sz
    · obtain ⟨p, hp, -, hmem, hf⟩ := h.entry hold
      refine ⟨p, ?_, ?_⟩
      · rw [ha.outside w (hpage (h.user_lt hold)) (.inl hold), hp]
      · rw [ha.data p (h.not_free hmem)]
        exact hf
    · have hge := Nat.le_of_not_lt hold
      obtain ⟨p, hp, -, hz⟩ := ha.inside w hge hw
      refine ⟨p, ?_, fun o _ => ?_⟩
      · rw [hp, hu w hge]
      · rw [hz, h.beyond]
        exact Nat.le_add_right_of_le (Nat.mul_le_mul_right _ hge)
  · intro w h₁ h₂
    rw [ha.outside w (hpage h₂) (.inr h₁)]
    exact h.rest w (Nat.le_trans hmono h₁) h₂
  · exact fun a hge => h.beyond a (Nat.le_trans (Nat.mul_le_mul_right _ hmono) hge)
  · exact h.kernel.congr fun w h₁ h₂ => ha.outside w h₂ (.inr (Nat.le_trans hmax h₁))
  · intro i hi
    rcases ha.only i hi with hold | ⟨w, hw, rfl⟩
    · exact h.hole i hold
    · left
      rw [pdx_page]
      simp only [nUser] at hmax
      omega

theorem Space.allocuvm (hu : ∀ w, pagesUp sz ≤ w → u w = true) (newsz : Nat) :
    ∃ k' d' r, allocuvm L k d sz newsz = .ok (k', d', r) ∧
      (r = max sz newsz ∧ newsz < kernBase ∧ Space L k₀ k' d' r f u ∨ r = 0 ∧ Held L k₀ k' d') := by
  by_cases hnew : newsz < kernBase
  · by_cases hle : sz ≤ newsz
    · obtain ⟨k', d', r, ho, hr⟩ := allocuvm_spec hle hnew (fun p hp => h.range p (h.mem_free hp))
        fun w h₁ h₂ => h.at_none h₁ h₂ hnew
      refine ⟨k', d', r, ho, ?_⟩
      rcases hr with ⟨rfl, ha⟩ | ⟨rfl, hr⟩
      · exact .inl ⟨(Nat.max_eq_right hle).symm, hnew, h.grow ha hle hnew hu⟩
      · exact .inr ⟨rfl, h.toHeld.conserve hr.conserve hr.data⟩
    · have hlt := Nat.lt_of_not_le hle
      rw [Vm.allocuvm, if_neg (Nat.not_le.2 hnew), if_pos hlt]
      exact ⟨k, d, sz, rfl, .inl ⟨(Nat.max_eq_left (Nat.le_of_lt hlt)).symm, hnew, h⟩⟩
  · rw [Vm.allocuvm, if_pos (Nat.le_of_not_lt hnew)]
    exact ⟨k, d, 0, rfl, .inr ⟨rfl, h.toHeld⟩⟩

theorem Space.write (bs : List UInt8) (hw : w < pagesUp sz) (hp : d.at w = some e) (hlen : o + bs.length ≤ pgSize) :
    Space L k₀ (k.write e.ppn o bs) d sz (overlay f (w * pgSize + o) bs) u := by
  obtain ⟨p, hat, -, hmem, hf⟩ := h.entry hw
  obtain rfl := Option.some.inj (hp.symm.trans hat)
  have hother {q : Nat} (hq : q ≠ p) : (k.write p o bs).data q = k.data q := update_of_ne hq _ _
  have hself : (k.write p o bs).data p = overlay (k.data p) o bs := update_self ..
  refine ⟨⟨h.nodup, h.range, h.books, fun q hq => ?_⟩, h.lt, ?_, h.rest, ?_, h.kernel, h.hole⟩
  · rw [hother, h.data q hq]
    rintro rfl
    exact hq (h.mem_pages hmem)
  · intro v hv
    obtain ⟨q, hq, hg⟩ := h.pages v hv
    refine ⟨q, hq, ?_⟩
    by_cases hvw : v = w
    · subst hvw
      cases hat.symm.trans hq
      rw [hself]
      exact overlay_shift hf
    · intro x hx
      rw [hother, hg x hx, overlay, if_neg]
      · simp only [pgSize] at hx hlen ⊢
        omega
      · rintro rfl
        exact hvw (h.distinct v w _ _ (h.user_lt hv) (h.user_lt hw) hq hat rfl)
  · intro a ha
    have hle : w * pgSize + o + bs.length ≤ a := by
      apply Nat.le_trans _ (Nat.le_trans (Nat.mul_le_mul_right pgSize hw) ha)
      rw [Nat.succ_mul, Nat.add_assoc]
      exact Nat.add_le_add_left hlen _
    rw [overlay_of_le hle, h.beyond a ha]

theorem Space.clearpteu (hw : w < pagesUp sz) :
    ∃ d', clearpteu d (w * pgSize) = .ok d' ∧ Space L k₀ k d' sz f (update u w false) := by
  obtain ⟨p, hat, hs, -, hf⟩ := h.entry hw
  have hwu := h.user_lt hw
  have hpage {v : Nat} (hv : v < nUser) : v < nPages := Nat.lt_trans hv (by decide)
  have hpte : d.pte (w * pgSize) = some ⟨p, ⟨true, u w⟩⟩ := hat
  have hset : Vm.clearpteu d (w * pgSize) = .ok (d.setPte (w * pgSize) (some ⟨p, ⟨true, false⟩⟩)) := by
    rw [Vm.clearpteu, if_neg (by
      rw [Option.isNone_iff_eq_none]
      exact Option.isSome_iff_ne_none.1 hs), hpte]
    rfl
  have hentry {v : Nat} (hv : v < nPages) := at_setPte (e := some ⟨p, ⟨true, false⟩⟩) hs (hpage hwu) hv
  have huser := @user_change d (d.setPte (w * pgSize) (some ⟨p, ⟨true, false⟩⟩)) w hwu fun v hv hne => by
    rw [hentry (hpage hv), if_neg hne]
  rw [hat, hentry (hpage hwu), if_pos rfl] at huser
  have hpages : (d.setPte (w * pgSize) (some ⟨p, ⟨true, false⟩⟩)).pages = d.pages := by
    rw [Pgdir.pages, Pgdir.pages, tables_setPte hs, page_setPte hs, add_right_cancel huser]
  refine ⟨_, hset, ⟨h.nodup, h.range, ?_, h.data⟩, h.lt, ?_, ?_, h.beyond, ?_, ?_⟩
  · rw [hpages]
    exact h.books
  · intro v hv
    by_cases hvw : v = w
    · subst hvw
      refine ⟨p, ?_, hf⟩
      rw [hentry (hpage hwu), if_pos rfl, update_self]
    · rw [hentry (hpage (h.user_lt hv)), if_neg hvw, update_of_ne hvw]
      exact h.pages v hv
  · intro v h₁ h₂
    rw [hentry (hpage h₂), if_neg (by omega)]
    exact h.rest v h₁ h₂
  · exact h.kernel.congr fun v h₁ h₂ => by rw [hentry h₂, if_neg (by omega)]
  · intro i hi
    apply h.hole
    rwa [← Option.isSome_map (f := Table.page), table_setPte hs, Option.isSome_map] at hi

end Space

end Xv6.Vm
