import Mathlib.Data.List.Basic
import Mathlib.Data.Nat.Find
import Mathlib.Logic.Function.Iterate

namespace Xv6.Lib
open Function
set_option autoImplicit true

variable {α : Type*} {next next' : α → α} {a b c x y : α} {l r : List α}

/-- Following `next` from `a` goes through `l` and comes to `b`. -/
def Path (next : α → α) : α → List α → α → Prop
  | a, [], b => next a = b
  | a, c :: l, b => next a = c ∧ Path next c l b

theorem Path.head (h : Path next a l b) : next a = l.headD b := by
  cases l with
  | nil => exact h
  | cons c l => exact h.1

theorem Path.start (h : Path next a l b) (ha : next' c = next a) (hl : ∀ x ∈ l, next' x = next x) :
    Path next' c l b := by
  induction l generalizing a c with
  | nil => exact ha.trans h
  | cons d l ih =>
    refine ⟨ha.trans h.1, ih h.2 (hl d List.mem_cons_self) ?_⟩
    intro x hx
    exact hl x (List.mem_cons_of_mem d hx)

theorem path_append : Path next a (l ++ r) b ↔
    Path next a l (r.headD b) ∧ Path next (l.getLastD a) r b := by
  induction l generalizing a with
  | nil => exact ⟨fun h => ⟨h.head, h⟩, And.right⟩
  | cons c l ih =>
    rw [List.cons_append, List.getLastD_cons]
    constructor
    · intro h
      exact ⟨⟨h.1, (ih.1 h.2).1⟩, (ih.1 h.2).2⟩
    · intro h
      exact ⟨h.1.1, ih.2 ⟨h.1.2, h.2⟩⟩

theorem getLastD_mem (l : List α) (a : α) : l.getLastD a ∈ a :: l := by
  induction l generalizing a with
  | nil => exact List.mem_cons_self
  | cons c l ih =>
    rw [List.getLastD_cons]
    exact List.mem_cons_of_mem a (ih c)

theorem exists_getLastD (h : x ∈ a :: l) : ∃ l₁ l₂, l = l₁ ++ l₂ ∧ l₁.getLastD a = x := by
  induction l generalizing a with
  | nil =>
    obtain rfl := List.mem_singleton.1 h
    exact ⟨[], [], rfl, rfl⟩
  | cons c l ih =>
    rcases List.mem_cons.1 h with rfl | h
    · exact ⟨[], c :: l, rfl, rfl⟩
    · obtain ⟨l₁, l₂, rfl, hx⟩ := ih h
      exact ⟨c :: l₁, l₂, rfl, (List.getLastD_cons ..).trans hx⟩

theorem Path.redirect [DecidableEq α] (h : Path next a l b) (hnd : (a :: l).Nodup) :
    Path (update next (l.getLastD a) c) a l c := by
  induction l generalizing a with
  | nil => exact update_self ..
  | cons d l ih =>
    have hne : a ≠ l.getLastD d := by
      rintro rfl
      exact (List.nodup_cons.1 hnd).1 (getLastD_mem l d)
    rw [List.getLastD_cons]
    exact ⟨(update_of_ne hne ..).trans h.1, ih h.2 (List.nodup_cons.1 hnd).2⟩

theorem Path.remove [DecidableEq α] (h : Path next a (l ++ b :: r) a)
    (hnd : (a :: (l ++ b :: r)).Nodup) : Path (update next (l.getLastD a) (next b)) a (l ++ r) a := by
  obtain ⟨h₁, -, h₂⟩ := path_append.1 h
  rw [← List.cons_append] at hnd
  obtain ⟨hl, -, hne⟩ := List.nodup_append.1 hnd
  apply path_append.2
  constructor
  · rw [← h₂.head]
    exact h₁.redirect hl
  · apply h₂.start (update_self ..)
    intro x hx
    exact update_of_ne (hne _ (getLastD_mem l a) x (List.mem_cons_of_mem b hx)).symm ..

theorem Path.push [DecidableEq α] (h : Path next a l a) (ha : a ∉ l) (hb : b ∉ a :: l) :
    Path (update (update next b (next a)) a b) a (b :: l) a := by
  have hba := List.ne_of_not_mem_cons hb
  refine ⟨update_self .., h.start ?_ ?_⟩
  · rw [update_of_ne hba, update_self]
  · intro x hx
    rw [update_of_ne (ne_of_mem_of_not_mem hx ha)]
    exact update_of_ne (ne_of_mem_of_not_mem (List.mem_cons_of_mem a hx) hb) ..

theorem Path.snoc [DecidableEq α] (h : Path next a l a) (hnd : (a :: l).Nodup) (hb : b ∉ a :: l) :
    Path (update (update next b a) (l.getLastD a) b) a (l ++ [b]) a := by
  have hne {x : α} (hx : x ∈ a :: l) : x ≠ b := ne_of_mem_of_not_mem hx hb
  have hold : Path (update next b a) a l a := by
    apply h.start (update_of_ne (hne List.mem_cons_self) ..)
    exact fun x hx => update_of_ne (hne (List.mem_cons_of_mem a hx)) ..
  refine path_append.2 ⟨hold.redirect hnd, update_self .., ?_⟩
  exact (update_of_ne (hne (getLastD_mem l a)).symm ..).trans (update_self ..)

theorem Path.iterate (h : Path next a l b) (hj : j ≤ l.length) :
    (l.take j).getLastD a = next^[j] a := by
  induction l generalizing a j with
  | nil =>
    obtain rfl := Nat.le_zero.1 hj
    rfl
  | cons c l ih =>
    cases j with
    | zero => rfl
    | succ j =>
      rw [List.take_succ_cons, List.getLastD_cons, ih h.2 (Nat.le_of_succ_le_succ hj),
        iterate_succ_apply, h.1]

theorem Path.iterate_length (h : Path next a l b) : next^[l.length + 1] a = b := by
  induction l generalizing a with
  | nil => exact h
  | cons c l ih =>
    rw [List.length_cons, iterate_succ_apply, h.1]
    exact ih h.2

theorem Path.reach_from (h : Path next a l b) (hx : x ∈ a :: l) : ∃ i ≤ l.length, next^[i] a = x := by
  obtain ⟨l₁, l₂, rfl, rfl⟩ := exists_getLastD hx
  have hle : l₁.length ≤ (l₁ ++ l₂).length := by
    rw [List.length_append]
    exact Nat.le_add_right _ _
  refine ⟨l₁.length, hle, ?_⟩
  rw [← h.iterate hle, List.take_left]

theorem Path.reach (h : Path next a l a) (hx : x ∈ a :: l) (hy : y ∈ a :: l) :
    ∃ k ≤ l.length, next^[k] x = y := by
  obtain ⟨i, hi, rfl⟩ := h.reach_from hx
  obtain ⟨j, hj, rfl⟩ := h.reach_from hy
  rcases Nat.lt_or_ge j i with hlt | hle
  · refine ⟨l.length + 1 - i + j, by omega, ?_⟩
    have hsum : l.length + 1 - i + j + i = j + (l.length + 1) := by omega
    rw [← iterate_add_apply, hsum, iterate_add_apply, h.iterate_length]
  · refine ⟨j - i, by omega, ?_⟩
    rw [← iterate_add_apply, Nat.sub_add_cancel hle]

theorem Path.pred (h : Path next a l a) (hx : x ∈ a :: l) : ∃ y ∈ a :: l, next y = x := by
  rcases List.mem_cons.1 hx with rfl | hx
  · refine ⟨l.getLastD x, getLastD_mem l x, ?_⟩
    have hlast := (path_append (r := [])).1 (by rwa [List.append_nil])
    exact hlast.2
  · obtain ⟨l₁, l₂, rfl⟩ := List.append_of_mem hx
    refine ⟨l₁.getLastD a, ?_, (path_append.1 h).2.1⟩
    have hmem := getLastD_mem l₁ a
    rw [← List.cons_append]
    exact List.mem_append_left _ hmem

theorem Path.next_mem (h : Path next a l a) (hx : x ∈ a :: l) : next x ∈ a :: l := by
  obtain ⟨l₁, l₂, rfl, rfl⟩ := exists_getLastD hx
  rw [(path_append.1 h).2.head]
  cases l₂ with
  | nil => exact List.mem_cons_self
  | cons d l₂ =>
    apply List.mem_cons_of_mem
    exact List.mem_append_right _ List.mem_cons_self

theorem Path.iterate_mem (h : Path next a l a) (hx : x ∈ a :: l) (k : Nat) :
    next^[k] x ∈ a :: l := by
  induction k with
  | zero => exact hx
  | succ k ih =>
    rw [iterate_succ_apply']
    exact h.next_mem ih

theorem Path.first {P : α → Prop} [DecidablePred P] (h : Path next a l a) (hx : x ∈ a :: l)
    (hy : y ∈ a :: l) (hP : P y) :
    ∃ k ≤ l.length, P (next^[k] x) ∧ ∀ i < k, ¬ P (next^[i] x) := by
  obtain ⟨k, hk, rfl⟩ := h.reach hx hy
  have hex : ∃ k, P (next^[k] x) := ⟨k, hP⟩
  exact ⟨Nat.find hex, Nat.le_trans (Nat.find_min' hex hP) hk, Nat.find_spec hex,
    fun i hi => Nat.find_min hex hi⟩

theorem iterate_ne_of_first {P : α → Prop} (hk : P (next^[k] x))
    (hmin : ∀ i < k, ¬ P (next^[i] x)) (hi : i < k) : next^[i + 1] x ≠ x := by
  intro hback
  refine hmin (k - (i + 1)) (by omega) ?_
  have hsum : k - (i + 1) + (i + 1) = k := by omega
  rw [← hsum, iterate_add_apply, hback] at hk
  exact hk

end Xv6.Lib
