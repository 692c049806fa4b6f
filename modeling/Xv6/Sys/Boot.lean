import Xv6.Sys.Create

namespace Xv6.Sys
open Lib Fs
set_option autoImplicit true

variable {f : Nat → Inode} {strict safe : Bool} {i n procs : Nat}

/-- Processes below `procs` are in the root of an image, and nothing else is in use. -/
def boot (ninodes : Nat) (f : Nat → Inode) (procs : Nat) : St where
  ninodes := ninodes
  inode := f
  ref i := if i = rootIno then procs else 0
  valid _ := false
  held
    | .cwd p => if p < procs then some rootIno else none
    | .fd _ _ => none

theorem held_boot {x : Slot} (h : (boot n f procs).held x = some i) :
    i = rootIno ∧ ∃ p, p < procs ∧ x = .cwd p := by
  cases x with
  | cwd p =>
    simp only [boot] at h
    split at h
    · next hp =>
      cases h
      exact ⟨rfl, p, hp, rfl⟩
    · cases h
  | fd p k => cases h

/-- Boot from an image in which every inode in use has links. -/
theorem inv_boot (h : Tree strict [] n f) (hl : ∀ i, (f i).type ≠ 0 → (f i).nlink ≠ 0)
    (procs : Nat) : Inv strict safe (boot n f procs) [] [] := by
  refine ⟨h, ?_, ?_, ?_, ?_, ?_, ?_⟩
  · intro i
    by_cases hi : i = rootIno
    · subst hi
      refine ⟨procs, ⟨(Finset.range procs).map ⟨.cwd, fun p q h => Slot.cwd.inj h⟩, ?_, ?_⟩, ?_⟩
      · intro x
        rw [Finset.mem_map, beq_iff_eq]
        constructor
        · rintro ⟨p, hp, rfl⟩
          exact if_pos (Finset.mem_range.1 hp)
        · intro hx
          obtain ⟨-, p, hp, rfl⟩ := held_boot hx
          exact ⟨p, Finset.mem_range.2 hp, rfl⟩
      · rw [Finset.card_map, Finset.card_range]
      · simp [boot]
    · refine ⟨0, counts_zero fun x => ?_, ?_⟩
      · rw [beq_eq_false_iff_ne]
        intro hx
        exact hi (held_boot hx).1
      · simp [boot, hi]
  · intro i _ hv
    cases hv
  · intro x i hx
    obtain ⟨rfl, -⟩ := held_boot hx
    change (f rootIno).type ≠ 0
    rw [h.root.1]
    decide
  · intro p i hx
    obtain ⟨rfl, -⟩ := held_boot hx
    exact h.root.1
  · intro i ht hz
    exact absurd hz (hl i ht)
  · intro _ p i hx
    obtain ⟨rfl, -⟩ := held_boot hx
    change Linked f (ent f rootIno 1)
    rw [h.root_up]
    exact h.root

def rootFs (i : Nat) : Inode :=
  if i = rootIno then ⟨tDir, 0, 0, 1, dotEntries rootIno rootIno⟩ else ⟨0, 0, 0, 0, []⟩

theorem rootFs_of_ne (h : i ≠ rootIno) : rootFs i = ⟨0, 0, 0, 0, []⟩ := if_neg h

theorem named_rootFs (x : Nat × Nat) : named rootFs x = if x = (1, 1) then 1 else 0 := by
  obtain ⟨d, k⟩ := x
  by_cases hd : d = rootIno
  · subst hd
    match k with
    | 0 => rfl
    | 1 => rfl
    | k + 2 =>
      rw [if_neg (by simp), named_ge (by simp) rfl, ent, entry_of_le]
      · rfl
      · exact Nat.le_add_left 2 k
  · rw [if_neg (by simp [hd]), named, rootFs_of_ne hd]
    rfl

theorem tree_rootFs (h₁ : 1 < n) (h₂ : n ≤ 2 ^ 16) : Tree strict [] n rootFs := by
  have hroot (i : Nat) (ht : (rootFs i).type ≠ 0) : i = rootIno := by
    by_contra hi
    rw [rootFs_of_ne hi] at ht
    exact ht rfl
  have hnone (x : Nat × Nat) (hx : 2 ≤ x.2) : named rootFs x = 0 := by
    rw [named_rootFs, if_neg]
    rintro rfl
    omega
  refine ⟨h₂, ?_, ?_, ?_, ?_, ⟨rfl, by decide⟩, rfl, ?_, ?_, ?_⟩
  · intro i ht
    rw [hroot i ht]
    exact ⟨by decide, h₁⟩
  · intro d hd
    obtain rfl := hroot d (by rw [hd]; decide)
    exact dots_dotEntries (by decide) (by decide) (by decide)
  · intro i hi0
    by_cases hi : i = rootIno
    · subst hi
      refine ⟨1, ⟨{(1, 1)}, ?_, rfl⟩, ?_⟩
      · intro x
        rw [named_rootFs, Finset.mem_singleton]
        split <;> simp [*]
      · exact ⟨fun h => (by cases h), fun _ => (by decide), fun _ _ => (by decide)⟩
    · refine ⟨0, counts_zero fun x => ?_, ?_⟩
      · rw [named_rootFs, beq_eq_false_iff_ne]
        split
        · exact Ne.symm hi
        · exact Ne.symm hi0
      · rw [rootFs_of_ne hi]
        exact ⟨fun _ => ⟨rfl, rfl⟩, fun h => absurd rfl h, fun h => absurd rfl h⟩
  · intro x y hx hy _ ht
    rw [hnone x hx] at ht
    cases ht
  · intro x hx
    rw [hnone x hx]
    decide
  · intro d hd hne
    exact absurd (hroot d (by rw [hd.1]; decide)) hne
  · intro x hx hne
    exact absurd (hnone x hx) hne

theorem inv_rootFs (h₁ : 1 < n) (h₂ : n ≤ 2 ^ 16) (procs : Nat) :
    Inv strict safe (boot n rootFs procs) [] [] := by
  apply inv_boot (tree_rootFs h₁ h₂)
  intro i ht
  by_cases hi : i = rootIno
  · subst hi
    decide
  · rw [rootFs_of_ne hi] at ht
    exact absurd rfl ht

end Xv6.Sys
