import Mathlib.Algebra.BigOperators.Group.Finset.Basic
import Mathlib.Data.Finset.Card
import Mathlib.Data.Fintype.Basic
import Mathlib.Logic.Function.Basic
import Mathlib.Tactic.Abel

namespace Xv6.Lib
open Function
set_option autoImplicit true

variable {ι κ : Type*} {f : κ → Bool} {pc pc' : ι → κ} {o : Option ι} {p q : ι} {x y : κ}

/-- The owner in `o` is the one process whose state satisfies `f`. -/
def Tracks (o : Option ι) (f : κ → Bool) (pc : ι → κ) : Prop :=
  ∀ p, o = some p ↔ f (pc p) = true

theorem Tracks.unique (h : Tracks o f pc) (hp : f (pc p) = true)
    (hq : f (pc q) = true) : p = q :=
  Option.some.inj (((h p).2 hp).symm.trans ((h q).2 hq))

theorem Tracks.none_false (h : Tracks none f pc) (p : ι) : f (pc p) = false := by
  cases hf : f (pc p) with
  | false => rfl
  | true => cases (h p).2 hf

theorem Tracks.congr (h : Tracks o f pc) (he : ∀ p, f (pc' p) = f (pc p)) :
    Tracks o f pc' := by
  intro p
  rw [he p]
  exact h p

section Update
variable [DecidableEq ι]

theorem proj_update (f : κ → β) (pc : ι → κ) (h : f x = f (pc p)) (q : ι) :
    f (update pc p x q) = f (pc q) := by
  by_cases hq : q = p
  · subst hq
    rw [update_self, h]
  · rw [update_of_ne hq]

theorem update_cases {P : κ → Prop} (h : P (update pc p x q)) :
    q = p ∧ P x ∨ q ≠ p ∧ P (pc q) := by
  by_cases hq : q = p
  · subst hq
    rw [update_self] at h
    exact .inl ⟨rfl, h⟩
  · rw [update_of_ne hq] at h
    exact .inr ⟨hq, h⟩

theorem imp_update {P : κ → Prop} (h : P x → P (pc p)) (hq : P (update pc p x q)) :
    P (pc q) := by
  rcases update_cases hq with ⟨rfl, hx⟩ | ⟨-, hq⟩
  · exact h hx
  · exact hq

theorem Tracks.keep (h : Tracks o f pc) (hp : pc p = y) (hx : f x = f y) :
    Tracks o f (update pc p x) :=
  h.congr (proj_update f pc (by rw [hx, hp]))

theorem Tracks.take (h : Tracks none f pc) (hx : f x = true) :
    Tracks (some p) f (update pc p x) := by
  intro q
  by_cases hq : q = p
  · subst hq
    simp only [update_self, hx]
  · have hf := h.none_false q
    simp only [update_of_ne hq, hf, Option.some.injEq, Bool.false_eq_true, iff_false]
    exact Ne.symm hq

theorem Tracks.drop (h : Tracks o f pc) (hp : pc p = y) (hy : f y = true) (hx : f x = false) :
    Tracks none f (update pc p x) := by
  subst hp
  intro q
  by_cases hq : q = p
  · subst hq
    simp only [update_self, hx, reduceCtorEq, Bool.false_eq_true]
  · rw [update_of_ne hq]
    refine ⟨fun he => (by cases he), fun hf => absurd (h.unique hf hy) hq⟩

end Update

/-- Exactly `n` processes are in a state that satisfies `f`. -/
def Counts (n : Nat) (f : κ → Bool) (pc : ι → κ) : Prop :=
  ∃ F : Finset ι, (∀ p, p ∈ F ↔ f (pc p) = true) ∧ F.card = n

theorem Counts.congr (h : Counts n f pc) (he : ∀ p, f (pc' p) = f (pc p)) :
    Counts n f pc' := by
  obtain ⟨F, hF, hn⟩ := h
  exact ⟨F, fun p => by rw [he p]; exact hF p, hn⟩

theorem Counts.pos (h : Counts n f pc) (hp : f (pc p) = true) : 0 < n := by
  obtain ⟨F, hF, hn⟩ := h
  rw [← hn]
  exact Finset.card_pos.2 ⟨p, (hF p).2 hp⟩

theorem Counts.zero_false (h : Counts 0 f pc) (p : ι) : f (pc p) = false := by
  cases hf : f (pc p) with
  | false => rfl
  | true => exact absurd (h.pos hf) (Nat.lt_irrefl _)

theorem Counts.unique (h : Counts n f pc) (h' : Counts m f pc) : n = m := by
  obtain ⟨F, hF, hn⟩ := h
  obtain ⟨G, hG, hm⟩ := h'
  have hFG : F = G := by
    ext p
    rw [hF, hG]
  rw [← hn, ← hm, hFG]

theorem Counts.le_one (h : Counts n f pc)
    (hu : ∀ p q, f (pc p) = true → f (pc q) = true → p = q) : n ≤ 1 := by
  obtain ⟨F, hF, hn⟩ := h
  rw [← hn, Finset.card_le_one]
  intro p hp q hq
  exact hu p q ((hF p).1 hp) ((hF q).1 hq)

theorem Counts.sub (h : Counts n f pc) (hs : ∀ p, f (pc' p) = true → f (pc p) = true) :
    ∃ m, m ≤ n ∧ Counts m f pc' := by
  obtain ⟨F, hF, hn⟩ := h
  refine ⟨_, ?_, F.filter fun p => f (pc' p) = true, ?_, rfl⟩
  · rw [← hn]
    exact Finset.card_filter_le F _
  · intro p
    rw [Finset.mem_filter, hF]
    exact ⟨And.right, fun hp => ⟨hs p hp, hp⟩⟩

theorem counts_zero (h : ∀ p : ι, f (pc p) = false) : Counts 0 f pc :=
  ⟨∅, fun p => by simp [h p], Finset.card_empty⟩

theorem counts_countP {z : κ} (l : List κ) (hz : f z = false) :
    Counts (l.countP f) f fun k => l.getD k z := by
  induction l with
  | nil => exact counts_zero fun k => by simpa using hz
  | cons a l ih =>
    obtain ⟨F, hF, hn⟩ := ih
    have hsucc : (0 : Nat) ∉ F.map ⟨Nat.succ, Nat.succ_injective⟩ := by simp
    cases ha : f a with
    | false =>
      refine ⟨F.map ⟨Nat.succ, Nat.succ_injective⟩, fun k => ?_, ?_⟩
      · cases k with
        | zero => simp [ha]
        | succ k => simpa using hF k
      · rw [Finset.card_map, hn, List.countP_cons_of_neg (by simp [ha])]
    | true =>
      refine ⟨insert 0 (F.map ⟨Nat.succ, Nat.succ_injective⟩), fun k => ?_, ?_⟩
      · cases k with
        | zero => simp [ha]
        | succ k => simpa using hF k
      · rw [Finset.card_insert_of_notMem hsucc, Finset.card_map, hn, List.countP_cons_of_pos ha]

theorem Counts.eq_sum {pc : Nat × ι → κ} {c : Nat → Nat} (h : Counts m f pc)
    (hn : ∀ x, f (pc x) = true → x.1 < n)
    (hc : ∀ d, d < n → Counts (c d) f fun k => pc (d, k)) :
    m = ((List.range n).map c).sum := by
  classical
  obtain ⟨F, hF, rfl⟩ := h
  have hmaps : Set.MapsTo Prod.fst (F : Set (Nat × ι)) (Finset.range n) := by
    intro x hx
    have hlt := hn x ((hF x).1 hx)
    simpa using hlt
  have hrow (d : Nat) (hd : d ∈ Finset.range n) : (F.filter (·.1 = d)).card = c d := by
    obtain ⟨G, hG, hcard⟩ := hc d (Finset.mem_range.1 hd)
    have hfib : F.filter (·.1 = d) = G.map ⟨Prod.mk d, Prod.mk_right_injective d⟩ := by
      ext ⟨e, k⟩
      simp only [Finset.mem_filter, hF, Finset.mem_map, hG, Function.Embedding.coeFn_mk,
        Prod.mk.injEq]
      constructor
      · rintro ⟨hk, rfl⟩
        exact ⟨k, hk, rfl, rfl⟩
      · rintro ⟨k, hk, rfl, rfl⟩
        exact ⟨hk, rfl⟩
    rw [hfib, Finset.card_map, hcard]
  calc F.card = ∑ d ∈ Finset.range n, (F.filter (·.1 = d)).card :=
        Finset.card_eq_sum_card_fiberwise hmaps
    _ = ∑ d ∈ Finset.range n, c d := Finset.sum_congr rfl hrow
    _ = ((List.range n).map c).sum := rfl

section Update
variable [DecidableEq ι]

theorem Counts.keep (h : Counts n f pc) (hp : pc p = y) (hx : f x = f y) :
    Counts n f (update pc p x) :=
  h.congr (proj_update f pc (by rw [hx, hp]))

theorem Counts.enter (h : Counts n f pc) (hp : pc p = y) (hy : f y = false) (hx : f x = true) :
    Counts (n + 1) f (update pc p x) := by
  obtain ⟨F, hF, hn⟩ := h
  have hpF : p ∉ F := by
    rw [hF, hp, hy]
    exact Bool.false_ne_true
  refine ⟨insert p F, fun q => ?_, by rw [Finset.card_insert_of_notMem hpF, hn]⟩
  by_cases hq : q = p
  · subst hq
    simp only [Finset.mem_insert, true_or, update_self, hx]
  · simp only [Finset.mem_insert, hq, false_or, update_of_ne hq, hF]

theorem Counts.leave (h : Counts n f pc) (hp : pc p = y) (hy : f y = true) (hx : f x = false) :
    Counts (n - 1) f (update pc p x) := by
  obtain ⟨F, hF, hn⟩ := h
  subst hp
  refine ⟨F.erase p, fun q => ?_, by rw [Finset.card_erase_of_mem ((hF p).2 hy), hn]⟩
  by_cases hq : q = p
  · subst hq
    simp only [Finset.mem_erase, ne_eq, not_true_eq_false, false_and, update_self, hx,
      Bool.false_eq_true]
  · simp only [Finset.mem_erase, ne_eq, hq, not_false_eq_true, true_and,
      update_of_ne hq, hF]

theorem Counts.update (h : Counts n f pc) (p : ι) (x : κ) :
    ∃ m, Counts m f (update pc p x) ∧ m + (f (pc p)).toNat = n + (f x).toNat := by
  cases hp : f (pc p) with
  | false =>
    cases hx : f x with
    | false => exact ⟨n, h.keep rfl (hx.trans hp.symm), rfl⟩
    | true => exact ⟨n + 1, h.enter rfl hp hx, rfl⟩
  | true =>
    cases hx : f x with
    | false => exact ⟨n - 1, h.leave rfl hp hx, Nat.sub_add_cancel (h.pos hp)⟩
    | true => exact ⟨n, h.keep rfl (hx.trans hp.symm), rfl⟩

end Update

theorem sum_update [Fintype ι] [DecidableEq ι] {M : Type*} [AddCommGroup M] (g : κ → M) (u : ι → κ)
    (i : ι) (x : κ) :
    ∑ j, g (update u i x j) = ∑ j, g (u j) - g (u i) + g x := by
  have hsplit (v : ι → κ) : ∑ j, g (v j) = g (v i) + ∑ j ∈ Finset.univ.erase i, g (v j) :=
    (Finset.add_sum_erase _ _ (Finset.mem_univ i)).symm
  rw [hsplit (update u i x), hsplit u, update_self]
  have hrest : ∑ j ∈ Finset.univ.erase i, g (update u i x j) =
      ∑ j ∈ Finset.univ.erase i, g (u j) := by
    apply Finset.sum_congr rfl
    intro j hj
    rw [update_of_ne (Finset.ne_of_mem_erase hj)]
  rw [hrest]
  abel

theorem sum_change {ι M : Type*} [DecidableEq ι] [AddCommMonoid M] {s : Finset ι} {f g : ι → M}
    {i : ι} (hi : i ∈ s) (h : ∀ j ∈ s, j ≠ i → f j = g j) :
    ∑ j ∈ s, f j + g i = ∑ j ∈ s, g j + f i := by
  have hrest : ∑ j ∈ s.erase i, f j = ∑ j ∈ s.erase i, g j := by
    apply Finset.sum_congr rfl
    intro j hj
    exact h j (Finset.mem_of_mem_erase hj) (Finset.ne_of_mem_erase hj)
  rw [← Finset.sum_erase_add s f hi, ← Finset.sum_erase_add s g hi, hrest, add_right_comm]

/-- What is in a sum without duplicates is in one of its terms only. -/
theorem eq_of_nodup_sum {ι : Type*} [DecidableEq ι] {s : Finset ι} {f : ι → Multiset α} {i j : ι}
    {a : α} (h : (∑ l ∈ s, f l).Nodup) (hi : i ∈ s) (hj : j ∈ s) (hai : a ∈ f i) (haj : a ∈ f j) :
    i = j := by
  by_contra hne
  rw [← Finset.sum_erase_add s f hi, Multiset.nodup_add] at h
  have hrest : a ∈ ∑ l ∈ s.erase i, f l :=
    Multiset.mem_sum.2 ⟨j, Finset.mem_erase.2 ⟨Ne.symm hne, hj⟩, haj⟩
  exact Multiset.disjoint_left.1 h.2.2 hrest hai

end Xv6.Lib
