import Xv6.Sys.Subdir

namespace Xv6.Sys
open Lib Fs Function
set_option autoImplicit true

variable {s s' : St} {f f' : Nat → Inode} {strict safe : Bool} {r : Option (Nat × List UInt8)}
variable {ts ps : List Nat} {c d dp i j k n p : Nat} {x : Slot} {name : List UInt8}

/-- Counts are exact, `ts` being those of the running call; an unlinked inode is in use. If `safe`,
the directory above every current directory has links. -/
structure Refs (safe : Bool) (s : St) (ts : List Nat) : Prop where
  count : ∀ i, ∃ m, Counts m (· == some i) s.held ∧ s.ref i = m + ts.count i
  valid : ∀ i, 0 < s.ref i → s.valid i = true → (s.inode i).type ≠ 0
  held : ∀ x i, s.held x = some i → (s.inode i).type ≠ 0
  cwd : ∀ p i, s.held (.cwd p) = some i → (s.inode i).type = tDir
  orphan : ∀ i, (s.inode i).type ≠ 0 → (s.inode i).nlink = 0 →
    s.valid i = true ∧ ((∃ x, s.held x = some i) ∨ i ∈ ts)
  above : safe = true → ∀ p i, s.held (.cwd p) = some i → Linked s.inode (ent s.inode i 1)

/-- Every inode without links is held by a process. -/
def NoOrphan (s : St) : Prop :=
  ∀ i, (s.inode i).type ≠ 0 → (s.inode i).nlink = 0 → ∃ x, s.held x = some i

structure Same (s s' : St) : Prop where
  ninodes : s'.ninodes = s.ninodes
  inode : s'.inode = s.inode
  held : s'.held = s.held

theorem Same.refl (s : St) : Same s s := ⟨rfl, rfl, rfl⟩

theorem Same.trans (h : Same s s₁) (h' : Same s₁ s') : Same s s' :=
  ⟨h'.ninodes.trans h.ninodes, h'.inode.trans h.inode, h'.held.trans h.held⟩

theorem NoOrphan.same (h : NoOrphan s) (hs : Same s s') : NoOrphan s' := by
  rw [NoOrphan, hs.inode, hs.held]
  exact h

theorem same_iget (s : St) (i : Nat) : Same s (iget s i) := ⟨rfl, rfl, rfl⟩

theorem same_idup (s : St) (i : Nat) : Same s (idup s i) := ⟨rfl, rfl, rfl⟩

theorem Refs.pos_of_mem (h : Refs safe s ts) (hi : i ∈ ts) : 0 < s.ref i := by
  obtain ⟨m, -, hr⟩ := h.count i
  have hc := List.count_pos_iff.2 hi
  omega

theorem Refs.pos_of_held (h : Refs safe s ts) (hx : s.held x = some i) : 0 < s.ref i := by
  obtain ⟨m, hm, hr⟩ := h.count i
  have hc : 0 < m := hm.pos (p := x) (by simp [hx])
  omega

theorem Refs.pos_of_orphan (h : Refs safe s ts) (ht : (s.inode i).type ≠ 0)
    (hl : (s.inode i).nlink = 0) : 0 < s.ref i := by
  obtain ⟨-, ⟨x, hx⟩ | hi⟩ := h.orphan i ht hl
  · exact h.pos_of_held hx
  · exact h.pos_of_mem hi

theorem Refs.noOrphan (h : Refs safe s []) : NoOrphan s := by
  intro i ht hl
  obtain ⟨-, hx | hi⟩ := h.orphan i ht hl
  · exact hx
  · cases hi

theorem Refs.count_cons (h : Refs safe s ts) (i : Nat) (j : Nat) :
    ∃ m, Counts m (· == some j) s.held ∧
      update s.ref i (s.ref i + 1) j = m + (i :: ts).count j := by
  obtain ⟨m, hm, hr⟩ := h.count j
  refine ⟨m, hm, ?_⟩
  by_cases hji : j = i
  · subst hji
    rw [update_self, List.count_cons_self, hr]
    rfl
  · rw [update_of_ne hji, count_cons_other ts hji, hr]

theorem Refs.orphan_cons (h : Refs safe s ts) (i : Nat) (ht : (s.inode j).type ≠ 0)
    (hl : (s.inode j).nlink = 0) :
    s.valid j = true ∧ ((∃ x, s.held x = some j) ∨ j ∈ i :: ts) := by
  obtain ⟨hv, hx | hj⟩ := h.orphan j ht hl
  · exact ⟨hv, .inl hx⟩
  · exact ⟨hv, .inr (List.mem_cons_of_mem i hj)⟩

theorem Refs.idup (h : Refs safe s ts) (hi : 0 < s.ref i) :
    Refs safe (Sys.idup s i) (i :: ts) := by
  constructor
  · exact h.count_cons i
  · intro j hj hv
    by_cases hji : j = i
    · subst hji
      exact h.valid j hi hv
    · simp only [Sys.idup, update_of_ne hji] at hj
      exact h.valid j hj hv
  · exact h.held
  · exact h.cwd
  · intro j ht hl
    exact h.orphan_cons i ht hl
  · exact h.above

theorem Refs.iget (h : Refs safe s ts) (i : Nat) : Refs safe (Sys.iget s i) (i :: ts) := by
  by_cases hi : 0 < s.ref i
  · have he : Sys.iget s i = Sys.idup s i := by
      simp only [Sys.iget, Sys.idup, Nat.pos_iff_ne_zero.1 hi, ↓reduceIte]
    rw [he]
    exact h.idup hi
  · have hz : s.ref i = 0 := Nat.eq_zero_of_not_pos hi
    have hvalid (j : Nat) (hji : j ≠ i) : (Sys.iget s i).valid j = s.valid j := by
      simp only [Sys.iget, hz, ↓reduceIte, update_of_ne hji]
    constructor
    · exact h.count_cons i
    · intro j hj hv
      by_cases hji : j = i
      · subst hji
        simp only [Sys.iget, hz, ↓reduceIte, update_self] at hv
        cases hv
      · rw [hvalid j hji] at hv
        simp only [Sys.iget, update_of_ne hji] at hj
        exact h.valid j hj hv
    · exact h.held
    · exact h.cwd
    · intro j ht hl
      have hji : j ≠ i := by
        rintro rfl
        exact hi (h.pos_of_orphan ht hl)
      rw [hvalid j hji]
      exact h.orphan_cons i ht hl
    · exact h.above

theorem Refs.ilock (h : Refs safe s ts) (hi : 0 < s.ref i) (ho : Sys.ilock s i = .ok s') :
    Refs safe s' ts ∧ Same s s' ∧ s'.ref = s.ref ∧ s'.valid i = true ∧
      (s.inode i).type ≠ 0 := by
  rw [Sys.ilock] at ho
  split at ho
  · next hv =>
    cases ho
    exact ⟨h, Same.refl s, rfl, hv, h.valid i hi hv⟩
  · obtain ⟨ht, ho⟩ := unless_ok ho
    cases ho
    refine ⟨⟨h.count, ?_, h.held, h.cwd, ?_, h.above⟩, ⟨rfl, rfl, rfl⟩, rfl,
      update_self .., ht⟩
    · intro j hj hv
      by_cases hji : j = i
      · rw [hji]
        exact ht
      · simp only [update_of_ne hji] at hv
        exact h.valid j hj hv
    · intro j ht' hl
      obtain ⟨hv, hor⟩ := h.orphan j ht' hl
      refine ⟨?_, hor⟩
      by_cases hji : j = i
      · subst hji
        exact update_self ..
      · simp only [update_of_ne hji]
        exact hv

theorem Refs.count_drop (h : Refs safe s (i :: ts)) (j : Nat) :
    ∃ m, Counts m (· == some j) s.held ∧
      update s.ref i (s.ref i - 1) j = m + ts.count j := by
  obtain ⟨m, hm, hr⟩ := h.count j
  refine ⟨m, hm, ?_⟩
  by_cases hji : j = i
  · subst hji
    rw [List.count_cons_self] at hr
    rw [update_self, hr]
    omega
  · rw [count_cons_other ts hji] at hr
    rw [update_of_ne hji, hr]

theorem Refs.iput_keep (h : Refs safe s (i :: ts))
    (hk : ¬(s.valid i = true ∧ (s.inode i).nlink = 0 ∧ s.ref i = 1)) :
    Refs safe (Sys.iput s i) ts ∧ Same s (Sys.iput s i) := by
  have he : Sys.iput s i = { s with ref := update s.ref i (s.ref i - 1) } := by
    simp only [Sys.iput, hk, ↓reduceIte]
  rw [he]
  refine ⟨⟨h.count_drop, ?_, h.held, h.cwd, ?_, h.above⟩, ⟨rfl, rfl, rfl⟩⟩
  · intro j hj hv
    apply h.valid j _ hv
    by_cases hji : j = i
    · subst hji
      exact h.pos_of_mem List.mem_cons_self
    · simpa only [update_of_ne hji] using hj
  · intro j ht hl
    obtain ⟨hv, hx | hj⟩ := h.orphan j ht hl
    · exact ⟨hv, .inl hx⟩
    · refine ⟨hv, ?_⟩
      by_cases hji : j = i
      · subst hji
        have hne : s.ref j ≠ 1 := fun h₁ => hk ⟨hv, hl, h₁⟩
        obtain ⟨m, hm, hr⟩ := h.count j
        rw [List.count_cons_self] at hr
        by_cases hc : 0 < ts.count j
        · exact .inr (List.count_pos_iff.1 hc)
        · left
          by_contra hno
          have hz : Counts 0 (· == some j) s.held := by
            apply counts_zero
            intro x
            simp only [beq_eq_false_iff_ne]
            exact fun hx => hno ⟨x, hx⟩
          have hm0 := hm.unique hz
          omega
      · exact .inr (List.mem_of_ne_of_mem hji hj)

theorem Refs.iput_same (h : Refs safe s (i :: ts)) (hn : NoOrphan s) :
    Refs safe (Sys.iput s i) ts ∧ Same s (Sys.iput s i) := by
  apply h.iput_keep
  rintro ⟨hv, hl, hr⟩
  have ht := h.valid i (h.pos_of_mem List.mem_cons_self) hv
  obtain ⟨x, hx⟩ := hn i ht hl
  obtain ⟨m, hm, hc⟩ := h.count i
  have hpos : 0 < m := hm.pos (p := x) (by simp [hx])
  rw [List.count_cons_self] at hc
  omega

structure Inv (strict safe : Bool) (s : St) (ts ps : List Nat) : Prop where
  tree : Tree strict ps s.ninodes s.inode
  refs : Refs safe s ts

theorem Inv.same (h : Inv strict safe s ts ps) (hs : Same s s') (hr : Refs safe s' ts') :
    Inv strict safe s' ts' ps := by
  refine ⟨?_, hr⟩
  rw [hs.ninodes, hs.inode]
  exact h.tree

theorem Inv.perm (h : Inv strict safe s ts ps) (hp : ts.Perm ts') :
    Inv strict safe s ts' ps := by
  refine ⟨h.tree, ?_, h.refs.valid, h.refs.held, h.refs.cwd, ?_, h.refs.above⟩
  · intro i
    rw [← hp.count_eq]
    exact h.refs.count i
  · intro i ht hl
    rw [← hp.mem_iff]
    exact h.refs.orphan i ht hl

theorem Refs.not_held (h : Refs safe s (i :: ts)) (hr : s.ref i = 1) (x : Slot) :
    s.held x ≠ some i := by
  intro hx
  obtain ⟨m, hm, hc⟩ := h.count i
  have hpos : 0 < m := hm.pos (p := x) (by simp [hx])
  rw [List.count_cons_self] at hc
  omega

theorem Refs.iput_free (h : Refs safe s (i :: ts)) (hl : (s.inode i).nlink = 0)
    (hr : s.ref i = 1) : Refs safe
      { s.free i with ref := update s.ref i (s.ref i - 1) } ts := by
  have hnh := h.not_held hr
  have hts : ts.count i = 0 := by
    obtain ⟨m, hm, hc⟩ := h.count i
    rw [List.count_cons_self] at hc
    omega
  have hother (j : Nat) (hji : j ≠ i) : (s.free i).inode j = s.inode j :=
    update_of_ne hji _ _
  have hself : ((s.free i).inode i).type = 0 := by
    simp only [St.free, update_self]
  constructor
  · exact h.count_drop
  · intro j hj hv
    by_cases hji : j = i
    · subst hji
      simp only [update_self, hr] at hj
      exact absurd hj (Nat.lt_irrefl 0)
    · simp only [update_of_ne hji] at hj
      simp only [St.free, update_of_ne hji] at hv
      simp only
      rw [hother j hji]
      exact h.valid j hj hv
  · intro x j hx
    have hji : j ≠ i := by
      rintro rfl
      exact hnh x hx
    simp only
    rw [hother j hji]
    exact h.held x j hx
  · intro p j hx
    have hji : j ≠ i := by
      rintro rfl
      exact hnh _ hx
    simp only
    rw [hother j hji]
    exact h.cwd p j hx
  · intro j ht hlj
    by_cases hji : j = i
    · subst hji
      exact absurd hself ht
    · simp only at ht hlj
      rw [hother j hji] at ht hlj
      obtain ⟨hv, hx | hj⟩ := h.orphan j ht hlj
      · refine ⟨?_, .inl hx⟩
        simp only [St.free, update_of_ne hji]
        exact hv
      · refine ⟨?_, .inr (List.mem_of_ne_of_mem hji hj)⟩
        simp only [St.free, update_of_ne hji]
        exact hv
  · intro hs p j hx
    have hji : j ≠ i := by
      rintro rfl
      exact hnh _ hx
    have hlk := h.above hs p j hx
    have hne : ent s.inode j 1 ≠ i := by
      intro he
      rw [he] at hlk
      have hpos := hlk.2
      rw [hl] at hpos
      exact absurd hpos (by decide)
    simp only [Linked, ent]
    rw [hother j hji, ← ent, hother _ hne]
    exact hlk

theorem Inv.iput (h : Inv strict safe s (i :: ts) ps) :
    Inv strict safe (Sys.iput s i) ts ps := by
  by_cases hk : s.valid i = true ∧ (s.inode i).nlink = 0 ∧ s.ref i = 1
  · have he : Sys.iput s i = { s.free i with ref := update s.ref i (s.ref i - 1) } := by
      rw [Sys.iput, if_pos hk]
      rfl
    rw [he]
    obtain ⟨hv, hl, hr⟩ := hk
    have ht := h.refs.valid i (h.refs.pos_of_mem List.mem_cons_self) hv
    exact ⟨h.tree.free ht hl, h.refs.iput_free hl hr⟩
  · obtain ⟨hr, hs⟩ := h.refs.iput_keep hk
    exact h.same hs hr

theorem held_iput (s : St) (i : Nat) : (iput s i).held = s.held := by
  rw [iput]
  split <;> rfl

theorem Refs.edit (h : Refs safe s ts)
    (ht : ∀ j, (s.inode j).type ≠ 0 → (f' j).type ≠ 0)
    (hd : ∀ j, (s.inode j).type = tDir → (f' j).type = tDir)
    (ho : ∀ j, (f' j).type ≠ 0 → (f' j).nlink = 0 →
      ((s.inode j).type ≠ 0 ∧ (s.inode j).nlink = 0) ∨ (s.valid j = true ∧ j ∈ ts))
    (hu : safe = true → ∀ p c, s.held (.cwd p) = some c → Linked f' (ent f' c 1)) :
    Refs safe { s with inode := f' } ts := by
  constructor
  · exact h.count
  · intro j hj hv
    exact ht j (h.valid j hj hv)
  · intro x j hx
    exact ht j (h.held x j hx)
  · intro p j hx
    exact hd j (h.cwd p j hx)
  · intro j hj hl
    rcases ho j hj hl with ⟨h₁, h₂⟩ | ⟨h₁, h₂⟩
    · exact h.orphan j h₁ h₂
    · exact ⟨h₁, .inr h₂⟩
  · exact hu

end Xv6.Sys
