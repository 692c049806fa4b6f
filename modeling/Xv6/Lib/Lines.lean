import Mathlib.Data.List.Basic

namespace Xv6.Lib
set_option autoImplicit true

section Lines
variable {α : Type*} {sep : α}

def unlines (sep : α) (ls : List (List α)) : List α :=
  ls.flatMap (· ++ [sep])

@[simp] theorem unlines_nil : unlines sep [] = [] :=
  rfl

@[simp] theorem unlines_cons : unlines sep (l :: ls) = l ++ sep :: unlines sep ls := by
  simp [unlines]

theorem unlines_append : unlines sep (ls ++ ls') = unlines sep ls ++ unlines sep ls' :=
  List.flatMap_append

theorem unlines_eq_nil : unlines sep ls = [] ↔ ls = [] := by
  cases ls with
  | nil => simp
  | cons l ls => simp

theorem length_le_unlines (sep : α) (ls : List (List α)) : ls.length ≤ (unlines sep ls).length := by
  induction ls with
  | nil => exact Nat.le_refl 0
  | cons l ls ih =>
    rw [unlines_cons, List.length_append, List.length_cons, List.length_cons]
    omega

variable [DecidableEq α]

/-- The lines that a separator ends, in a text that goes on after `cur`, and the rest. -/
def splitLines (sep : α) (cur : List α) : List α → List (List α) × List α
  | [] => ([], cur)
  | c :: s =>
    if c = sep then (cur :: (splitLines sep [] s).1, (splitLines sep [] s).2)
    else splitLines sep (cur ++ [c]) s

theorem splitLines_sep (s cur : List α) : splitLines sep cur (sep :: s) =
    (cur :: (splitLines sep [] s).1, (splitLines sep [] s).2) := by
  rw [splitLines, if_pos rfl]

/-- A text may be split in parts, each with what the last has left. -/
theorem splitLines_append (s t cur : List α) :
    splitLines sep cur (s ++ t) =
      ((splitLines sep cur s).1 ++ (splitLines sep (splitLines sep cur s).2 t).1,
        (splitLines sep (splitLines sep cur s).2 t).2) := by
  induction s generalizing cur with
  | nil => rfl
  | cons c s ih =>
    rw [List.cons_append, splitLines, splitLines]
    split
    · rw [ih]
      rfl
    · exact ih _

end Lines

end Xv6.Lib
