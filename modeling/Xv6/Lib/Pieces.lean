import Mathlib.Algebra.BigOperators.Group.Finset.Piecewise
import Mathlib.Algebra.Order.BigOperators.Group.Finset

namespace Xv6.Lib
set_option autoImplicit true

variable {κ α : Type*}

def joined (log : List (κ × List α)) : List α :=
  log.flatMap Prod.snd

theorem joined_snoc (log : List (κ × List α)) (c : κ) (d : List α) :
    joined (log ++ [(c, d)]) = joined log ++ d := by
  simp [joined]

variable [DecidableEq κ] {log : List (κ × List α)} {c : κ}

def pieces (log : List (κ × List α)) (c : κ) : List α :=
  log.flatMap fun x => if x.1 = c then x.2 else []

theorem pieces_snoc (log : List (κ × List α)) (c : κ) (d : List α) (e : κ) :
    pieces (log ++ [(c, d)]) e = pieces log e ++ if c = e then d else [] := by
  simp [pieces]

theorem pieces_eq_nil (h : ∀ x ∈ log, x.1 ≠ c) : pieces log c = [] := by
  rw [pieces, List.flatMap_eq_nil_iff]
  exact fun x hx => if_neg (h x hx)

theorem length_joined (s : Finset κ) (h : ∀ x ∈ log, x.1 ∈ s) :
    (joined log).length = ∑ c ∈ s, (pieces log c).length := by
  induction log with
  | nil => simp [joined, pieces]
  | cons x log ih =>
    have hx := h x List.mem_cons_self
    have hrest := ih fun y hy => h y (List.mem_cons_of_mem x hy)
    have hcons (c : κ) : (pieces (x :: log) c).length =
        (if x.1 = c then x.2.length else 0) + (pieces log c).length := by
      rw [pieces, List.flatMap_cons, List.length_append]
      split <;> rfl
    simp only [joined, List.flatMap_cons, List.length_append] at hrest ⊢
    simp only [hcons, Finset.sum_add_distrib, Finset.sum_ite_eq, hx, ↓reduceIte, hrest]

theorem joined_add_le (s : Finset κ) (h : ∀ x ∈ log, x.1 ∈ s) (hc : c ∈ s) {f : κ → Nat} {n : Nat}
    (hf : ∀ e ∈ s, (pieces log e).length ≤ f e) (hn : (pieces log c).length + n ≤ f c) :
    (joined log).length + n ≤ ∑ e ∈ s, f e := by
  have hsum : (joined log).length + n =
      ∑ e ∈ s, ((pieces log e).length + if c = e then n else 0) := by
    rw [length_joined s h, Finset.sum_add_distrib, Finset.sum_ite_eq, if_pos hc]
  rw [hsum]
  apply Finset.sum_le_sum
  intro e he
  split
  · next hce =>
    subst hce
    exact hn
  · exact hf e he

end Xv6.Lib
