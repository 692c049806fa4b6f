import Mathlib.Data.List.Basic
import Mathlib.Logic.Function.Basic

namespace Xv6.Lib
set_option autoImplicit true

variable {α : Type*} {next next' : α → Option α} {o : Option α} {l r : List α} {a b : α}

/-- The list that begins at `o` and goes on by the pointers `next`. -/
def Chain (next : α → Option α) : Option α → List α → Prop
  | o, [] => o = none
  | o, a :: l => o = some a ∧ Chain next (next a) l

theorem Chain.head (h : Chain next o l) : o = l.head? := by
  cases l with
  | nil => exact h
  | cons a l => exact h.1

theorem Chain.congr (h : Chain next o l) (hn : ∀ a ∈ l, next' a = next a) : Chain next' o l := by
  induction l generalizing o with
  | nil => exact h
  | cons a l ih =>
    refine ⟨h.1, ?_⟩
    rw [hn a List.mem_cons_self]
    exact ih h.2 fun b hb => hn b (List.mem_cons_of_mem a hb)

theorem Chain.next_eq (h : Chain next o (l ++ a :: r)) : next a = r.head? := by
  induction l generalizing o with
  | nil => exact h.2.head
  | cons b l ih => exact ih h.2

theorem Chain.next_mem (h : Chain next o l) (ha : a ∈ l) :
    (∃ b ∈ l, next a = some b) ∨ next a = none ∧ ∃ r, l = r ++ [a] := by
  obtain ⟨l, r, rfl⟩ := List.append_of_mem ha
  have hnext := h.next_eq
  cases r with
  | nil => exact .inr ⟨hnext, l, rfl⟩
  | cons b r => exact .inl ⟨b, by simp, hnext⟩

variable [DecidableEq α]

theorem Chain.update (h : Chain next o l) (ha : a ∉ l) : Chain (Function.update next a o') o l :=
  h.congr fun _ hb => Function.update_of_ne (ne_of_mem_of_not_mem hb ha) ..

theorem Chain.snoc (h : Chain next o (l ++ [a])) (hnd : (l ++ [a]).Nodup) (hb : b ∉ l ++ [a])
    (hlast : next b = none) : Chain (Function.update next a (some b)) o (l ++ [a] ++ [b]) := by
  induction l generalizing o with
  | nil =>
    have hba : b ≠ a := fun he => hb (List.mem_singleton.2 he)
    refine ⟨h.1, Function.update_self .., ?_⟩
    show Function.update next a (some b) b = none
    rw [Function.update_of_ne hba, hlast]
  | cons c l ih =>
    have hc := List.nodup_cons.1 hnd
    have hca : c ≠ a :=
      (ne_of_mem_of_not_mem (List.mem_append_right l (List.mem_singleton_self a)) hc.1).symm
    refine ⟨h.1, ?_⟩
    rw [Function.update_of_ne hca]
    exact ih h.2 hc.2 fun hm => hb (List.mem_cons_of_mem c hm)

end Xv6.Lib
