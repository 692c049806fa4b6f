import Xv6.Fs.Dir
import Mathlib.Data.List.TakeWhile

namespace Xv6.Dir
open Fs
set_option autoImplicit true

variable {dents : List Dirent} {de : Dirent} {name name' : List UInt8} {i j k l off : Nat}

def lookup (dents : List Dirent) (name : List UInt8) : Option Nat := (find dents name).map Prod.snd

def Distinct (dents : List Dirent) : Prop :=
  ∀ k l, (entry dents k).inum ≠ 0 → (entry dents l).inum ≠ 0 →
    key (entry dents k).name = key (entry dents l).name → k = l

theorem lookup_eq_none : lookup dents name = none ↔ find dents name = none :=
  Option.map_eq_none_iff

theorem lookup_of_find (h : find dents name = some (off, i)) : lookup dents name = some i := by
  rw [lookup, h]
  rfl

theorem find_isSome (hk : (entry dents k).inum ≠ 0) (hn : key name = key (entry dents k).name) :
    ∃ off i, find dents name = some (off, i) := by
  cases hf : find dents name with
  | none => exact absurd hn (find_none hf hk)
  | some q => exact ⟨q.1, q.2, rfl⟩

theorem Distinct.lookup_eq_some (h : Distinct dents) : lookup dents name = some i ↔
    i ≠ 0 ∧ ∃ k, (entry dents k).inum = i ∧ key name = key (entry dents k).name := by
  constructor
  · intro hl
    obtain ⟨⟨off, j⟩, hf, rfl⟩ := Option.map_eq_some_iff.1 hl
    obtain ⟨hi, hj, hn, -⟩ := find_some hf
    exact ⟨hj, off, hi, hn⟩
  · rintro ⟨hi, k, rfl, hn⟩
    obtain ⟨off, j, hf⟩ := find_isSome hi hn
    obtain ⟨rfl, hj, hn', -⟩ := find_some hf
    rw [lookup_of_find hf, h k off hi hj (hn.symm.trans hn')]

theorem lookup_congr (h : key name = key name') : lookup dents name = lookup dents name' := by
  rw [lookup, lookup, find, find]
  simp only [namecmp_eq_zero, h]

theorem key_key (name : List UInt8) : key (key name) = key name := by
  have hlen : (key name).length ≤ dirSiz :=
    Nat.le_trans (List.takeWhile_sublist _).length_le (List.length_take_le _ _)
  rw [key, List.take_of_length_le hlen, key, List.takeWhile_idem]

theorem Distinct.insert (h : Distinct dents) (hf : lookup dents name = none)
    (hlen : k ≤ dents.length) (hn : key de.name = key name) :
    Distinct (putDirent dents k de) := by
  have hfresh (l : Nat) (hl : (entry dents l).inum ≠ 0) :
      key de.name ≠ key (entry dents l).name := by
    rw [hn]
    exact find_none (lookup_eq_none.1 hf) hl
  intro a b ha hb hab
  rw [entry_putDirent hlen] at ha hab
  rw [entry_putDirent hlen] at hb hab
  by_cases hak : a = k
  · by_cases hbk : b = k
    · rw [hak, hbk]
    · rw [if_neg hbk] at hb hab
      rw [if_pos hak] at hab
      exact absurd hab (hfresh b hb)
  · rw [if_neg hak] at ha hab
    by_cases hbk : b = k
    · rw [if_pos hbk] at hab
      exact absurd hab.symm (hfresh a ha)
    · rw [if_neg hbk] at hb hab
      exact h a b ha hb hab

theorem Distinct.lookup_insert (h : Distinct dents) (hf : lookup dents name = none)
    (hlen : k ≤ dents.length) (hz : (entry dents k).inum = 0) (hi : de.inum ≠ 0)
    (hn : key de.name = key name) (name' : List UInt8) : lookup (putDirent dents k de) name' =
      if key name' = key name then some de.inum else lookup dents name' := by
  have hd := h.insert hf hlen hn
  split
  · next hk =>
    rw [hd.lookup_eq_some]
    refine ⟨hi, k, ?_, ?_⟩
    · rw [entry_putDirent hlen, if_pos rfl]
    · rw [entry_putDirent hlen, if_pos rfl, hk, hn]
  · next hk =>
    ext i
    rw [hd.lookup_eq_some, h.lookup_eq_some]
    apply and_congr_right
    intro hi0
    constructor
    · rintro ⟨l, hl, hln⟩
      rw [entry_putDirent hlen] at hl hln
      by_cases hlk : l = k
      · rw [if_pos hlk, hn] at hln
        exact absurd hln hk
      · rw [if_neg hlk] at hl hln
        exact ⟨l, hl, hln⟩
    · rintro ⟨l, hl, hln⟩
      have hlk : l ≠ k := by
        rintro rfl
        rw [hz] at hl
        exact hi0 hl.symm
      refine ⟨l, ?_, ?_⟩
      · rw [entry_putDirent hlen, if_neg hlk]
        exact hl
      · rw [entry_putDirent hlen, if_neg hlk]
        exact hln

theorem entry_cleared (hf : find dents name = some (k, i)) (l : Nat) :
    entry (putDirent dents k .zero) l = if l = k then .zero else entry dents l := by
  obtain ⟨hk, hi, -, -⟩ := find_some hf
  apply entry_putDirent
  apply Nat.le_of_lt
  apply lt_of_inum_ne
  rw [hk]
  exact hi

theorem Distinct.remove (h : Distinct dents) (hf : find dents name = some (k, i)) :
    Distinct (putDirent dents k .zero) := by
  intro a b ha hb hab
  rw [entry_cleared hf] at ha hab
  rw [entry_cleared hf] at hb hab
  by_cases hak : a = k
  · rw [if_pos hak] at ha
    exact absurd rfl ha
  · by_cases hbk : b = k
    · rw [if_pos hbk] at hb
      exact absurd rfl hb
    · rw [if_neg hak] at ha hab
      rw [if_neg hbk] at hb hab
      exact h a b ha hb hab

theorem Distinct.lookup_remove (h : Distinct dents) (hf : find dents name = some (k, i))
    (name' : List UInt8) : lookup (putDirent dents k .zero) name' =
      if key name' = key name then none else lookup dents name' := by
  have hd := h.remove hf
  obtain ⟨hk, hi, hn, -⟩ := find_some hf
  ext j
  rw [hd.lookup_eq_some]
  split
  · next hname =>
    constructor
    · rintro ⟨hj, l, hl, hln⟩
      rw [entry_cleared hf] at hl hln
      by_cases hlk : l = k
      · rw [if_pos hlk] at hl
        exact absurd hl.symm hj
      · rw [if_neg hlk] at hl hln
        apply absurd (h l k _ _ _) hlk
        · rw [hl]
          exact hj
        · rw [hk]
          exact hi
        · rw [← hln, hname, hn]
    · intro hj
      cases hj
  · next hname =>
    rw [h.lookup_eq_some]
    apply and_congr_right
    intro hj
    constructor
    · rintro ⟨l, hl, hln⟩
      rw [entry_cleared hf] at hl hln
      by_cases hlk : l = k
      · rw [if_pos hlk] at hl
        exact absurd hl.symm hj
      · rw [if_neg hlk] at hl hln
        exact ⟨l, hl, hln⟩
    · rintro ⟨l, hl, hln⟩
      have hlk : l ≠ k := by
        rintro rfl
        rw [hln, hn] at hname
        exact hname rfl
      refine ⟨l, ?_, ?_⟩
      · rw [entry_cleared hf, if_neg hlk]
        exact hl
      · rw [entry_cleared hf, if_neg hlk]
        exact hln

end Xv6.Dir
