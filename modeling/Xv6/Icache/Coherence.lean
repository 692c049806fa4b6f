import Xv6.Icache.Machine

namespace Xv6.Icache
open Lib Fs Function
set_option autoImplicit true

variable {s s' : St} {p q : Pid} {i j : Slot} {n m dev inum ninodes : Nat} {x : Pc} {v : Inode}

def Pc.arg : Pc → Option (Nat × Slot)
  | .idle | .ialloc _ _ _ _ | .iget _ _ _ => none
  | .ilock n i | .ilockRead n i | .iput n i | .iputTest n i | .iputCount n i | .itrunc n i
  | .itruncUpdate n i | .iputType n i | .iputUpdate n i | .iputInvalid n i | .iputUnlock n i
  | .iputDec n i => some (n, i)

def Pc.out : Pc → Option Nat
  | .ialloc _ _ _ n | .iget _ _ n => some n
  | _ => none

def Pc.locked : Pc → Option Slot
  | .ilockRead _ i | .iputTest _ i | .iputCount _ i | .itrunc _ i | .itruncUpdate _ i
  | .iputType _ i | .iputUpdate _ i | .iputInvalid _ i | .iputUnlock _ i => some i
  | .idle | .ilock _ _ | .ialloc _ _ _ _ | .iget _ _ _ | .iput _ _ | .iputDec _ _ => none

def Pc.changed : Pc → Option Slot
  | .itruncUpdate _ i | .iputUpdate _ i => some i
  | _ => none

def Pc.frees : Pc → Option Slot
  | .iputUpdate _ i | .iputInvalid _ i => some i
  | _ => none

theorem Pc.locked_of_frees (h : x.frees = some i) : x.locked = some i := by
  cases x with
  | iputUpdate n j => exact h
  | iputInvalid n j => exact h
  | _ => cases h

/-- References are counted, a lock comes with one, and an unlocked entry is as on disk. -/
structure Inv (s : St) : Prop where
  count : ∀ i, Counts (s.ref i) (· == some i) s.var
  unique : ∀ i j, 0 < s.ref i → 0 < s.ref j → s.dev i = s.dev j → s.inum i = s.inum j → i = j
  arg : ∀ p n i, (s.pc p).arg = some (n, i) → s.var (p, n) = some i
  out : ∀ p n, (s.pc p).out = some n → s.var (p, n) = none
  locked : ∀ p i, (s.pc p).locked = some i → s.holder i = some p
  owner : ∀ p i, s.holder i = some p → ∃ n, s.var (p, n) = some i ∧ s.pc p ≠ .iputDec n i
  touched : ∀ i, s.touched i = true → s.holder i ≠ none
  clean : ∀ p i, (s.pc p).locked = some i → (s.pc p).changed ≠ some i → s.touched i = false
  live : ∀ i, 0 < s.ref i → s.valid i = true → (s.ip i).type ≠ 0 →
    (s.disk (s.dev i) (s.inum i)).type ≠ 0 ∧
      (s.touched i = false → s.ip i = s.disk (s.dev i) (s.inum i))
  freed : ∀ i, 0 < s.ref i → s.valid i = true → (s.ip i).type = 0 → ∃ p, (s.pc p).frees = some i

theorem Inv.pos_of_var {y : Pid × Nat} (h : Inv s) (hy : s.var y = some i) : 0 < s.ref i :=
  (h.count i).pos (p := y) (by simp [hy])

theorem Inv.goto (h : Inv s) (harg : ∀ n i, x.arg = some (n, i) → s.var (p, n) = some i)
    (hout : ∀ n, x.out = some n → s.var (p, n) = none)
    (hlocked : ∀ i, x.locked = some i → s.holder i = some p)
    (hdec : ∀ n i, x = .iputDec n i → s.holder i ≠ some p)
    (hclean : ∀ i, x.locked = some i → x.changed ≠ some i → s.touched i = false)
    (hfrees : ∀ i, (s.pc p).frees = some i → x.frees = some i ∨ s.valid i = false) :
    Inv (s.goto p x) := by
  refine ⟨h.count, h.unique, ?_, ?_, ?_, ?_, h.touched, ?_, h.live, ?_⟩
  · apply (forall_update_iff s.pc (p := fun q y => ∀ n i, y.arg = some (n, i) →
      s.var (q, n) = some i)).2
    exact ⟨harg, fun q _ => h.arg q⟩
  · apply (forall_update_iff s.pc (p := fun q y => ∀ n, y.out = some n →
      s.var (q, n) = none)).2
    exact ⟨hout, fun q _ => h.out q⟩
  · apply (forall_update_iff s.pc (p := fun q y => ∀ i, y.locked = some i →
      s.holder i = some q)).2
    exact ⟨hlocked, fun q _ => h.locked q⟩
  · apply (forall_update_iff s.pc (p := fun q y => ∀ i, s.holder i = some q →
      ∃ n, s.var (q, n) = some i ∧ y ≠ .iputDec n i)).2
    refine ⟨?_, fun q _ => h.owner q⟩
    intro i hi
    obtain ⟨n, hn, -⟩ := h.owner p i hi
    exact ⟨n, hn, fun hx => hdec n i hx hi⟩
  · apply (forall_update_iff s.pc (p := fun _ y => ∀ i, y.locked = some i →
      y.changed ≠ some i → s.touched i = false)).2
    exact ⟨hclean, fun q _ => h.clean q⟩
  · intro i hr hv ht
    obtain ⟨q, hq⟩ := h.freed i hr hv ht
    by_cases hqp : q = p
    · subst hqp
      rcases hfrees i hq with hx | hx
      · exact ⟨q, by simpa only [St.goto, update_self] using hx⟩
      · exact absurd hv (by simp [St.goto, hx])
    · exact ⟨q, by simpa only [St.goto, update_of_ne hqp] using hq⟩

theorem Inv.goto_free (h : Inv s) (harg : x.arg = none) (hl : x.locked = none)
    (hout : ∀ n, x.out = some n → s.var (p, n) = none) (hf : (s.pc p).frees = none) :
    Inv (s.goto p x) := by
  apply h.goto _ hout
  · intro i hi
    rw [hl] at hi
    cases hi
  · rintro n i rfl
    cases harg
  · intro i hi
    rw [hl] at hi
    cases hi
  · intro i hi
    rw [hf] at hi
    cases hi
  · intro n i hi
    rw [harg] at hi
    cases hi

theorem Inv.leave (h : Inv s) (hf : (s.pc p).frees = none) : Inv (s.goto p .idle) :=
  h.goto_free rfl rfl (fun _ hn => by cases hn) hf

theorem Inv.lock (h : Inv s) (hi : s.holder i = none) (hv : s.var (p, n) = some i)
    (hd : s.pc p ≠ .iputDec n i) : Inv (s.setHolder i (some p)) := by
  refine ⟨h.count, h.unique, h.arg, h.out, ?_, ?_, ?_, h.clean, h.live, h.freed⟩
  · intro q j hq
    have hj := h.locked q j hq
    have hji : j ≠ i := by
      rintro rfl
      rw [hi] at hj
      cases hj
    simp only [St.setHolder, update_of_ne hji]
    exact hj
  · intro q j hj
    by_cases hji : j = i
    · subst hji
      simp only [St.setHolder, update_self, Option.some.injEq] at hj
      subst hj
      exact ⟨n, hv, hd⟩
    · simp only [St.setHolder, update_of_ne hji] at hj
      exact h.owner q j hj
  · intro j hj
    have hne := h.touched j hj
    have hji : j ≠ i := by
      rintro rfl
      exact hne hi
    simp only [St.setHolder, update_of_ne hji]
    exact hne

theorem Inv.unlock (h : Inv s) (hi : s.holder i = some p) (hl : (s.pc p).locked ≠ some i)
    (ht : s.touched i = false) : Inv (s.setHolder i none) := by
  refine ⟨h.count, h.unique, h.arg, h.out, ?_, ?_, ?_, h.clean, h.live, h.freed⟩
  · intro q j hq
    have hj := h.locked q j hq
    have hji : j ≠ i := by
      rintro rfl
      rw [hi, Option.some.injEq] at hj
      subst hj
      exact hl hq
    simp only [St.setHolder, update_of_ne hji]
    exact hj
  · intro q j hj
    by_cases hji : j = i
    · subst hji
      simp only [St.setHolder, update_self] at hj
      cases hj
    · simp only [St.setHolder, update_of_ne hji] at hj
      exact h.owner q j hj
  · intro j hj
    have hji : j ≠ i := by
      rintro rfl
      exact absurd hj (by simp [St.setHolder, ht])
    simp only [St.setHolder, update_of_ne hji]
    exact h.touched j hj

theorem Inv.setIp (h : Inv s) (hi : s.holder i = some p)
    (hc : (s.pc p).locked = some i → (s.pc p).changed = some i)
    (hv : v.type = (s.ip i).type ∨ v.type = 0 ∧ (s.pc p).frees = some i) : Inv (s.setIp i v) := by
  refine ⟨h.count, h.unique, h.arg, h.out, h.locked, h.owner, ?_, ?_, ?_, ?_⟩
  · intro j hj
    by_cases hji : j = i
    · subst hji
      simp [St.setIp, hi]
    · simp only [St.setIp, update_of_ne hji] at hj
      exact h.touched j hj
  · intro q j hq hn
    have hji : j ≠ i := by
      rintro rfl
      have hj := h.locked q j hq
      rw [hi, Option.some.injEq] at hj
      subst hj
      exact hn (hc hq)
    simp only [St.setIp, update_of_ne hji]
    exact h.clean q j hq hn
  · intro j hr hval ht
    by_cases hji : j = i
    · subst hji
      simp only [St.setIp, update_self] at ht ⊢
      rcases hv with hv | hv
      · rw [hv] at ht
        exact ⟨(h.live j hr hval ht).1, fun h₀ => by cases h₀⟩
      · exact absurd hv.1 ht
    · simp only [St.setIp, update_of_ne hji] at ht ⊢
      exact h.live j hr hval ht
  · intro j hr hval ht
    by_cases hji : j = i
    · subst hji
      simp only [St.setIp, update_self] at ht
      rcases hv with hv | hv
      · rw [hv] at ht
        exact h.freed j hr hval ht
      · exact ⟨p, hv.2⟩
    · simp only [St.setIp, update_of_ne hji] at ht
      exact h.freed j hr hval ht

theorem setDisk_self (s : St) (dev inum : Nat) (v : Inode) :
    (s.setDisk dev inum v).disk dev inum = v := by
  simp only [St.setDisk, update_self]

theorem setDisk_of_ne (s : St) (v : Inode) (h : ¬(d = dev ∧ k = inum)) :
    (s.setDisk dev inum v).disk d k = s.disk d k := by
  by_cases hd : d = dev
  · subst hd
    have hk : k ≠ inum := fun hk => h ⟨rfl, hk⟩
    simp only [St.setDisk, update_self, update_of_ne hk]
  · simp only [St.setDisk, update_of_ne hd]

theorem Inv.iupdate (h : Inv s) (hi : s.holder i = some p) : Inv (s.iupdate i) := by
  obtain ⟨n, hn, -⟩ := h.owner p i hi
  have hpos := h.pos_of_var hn
  refine ⟨h.count, h.unique, h.arg, h.out, h.locked, h.owner, ?_, ?_, ?_, h.freed⟩
  · intro j hj
    have hji : j ≠ i := by
      rintro rfl
      simp only [St.iupdate, update_self] at hj
      cases hj
    simp only [St.iupdate, update_of_ne hji] at hj
    exact h.touched j hj
  · intro q j hq hc
    by_cases hji : j = i
    · subst hji
      simp only [St.iupdate, update_self]
    · simp only [St.iupdate, update_of_ne hji]
      exact h.clean q j hq hc
  · intro j hr hv ht
    by_cases hji : j = i
    · subst hji
      have hd : (s.iupdate j).disk ((s.iupdate j).dev j) ((s.iupdate j).inum j) = s.ip j :=
        setDisk_self s _ _ _
      rw [hd]
      exact ⟨ht, fun _ => rfl⟩
    · have hd : (s.iupdate i).disk ((s.iupdate i).dev j) ((s.iupdate i).inum j) =
          s.disk (s.dev j) (s.inum j) := by
        apply setDisk_of_ne
        rintro ⟨h₁, h₂⟩
        exact hji (h.unique j i hr hpos h₁ h₂)
      rw [hd]
      simp only [St.iupdate, update_of_ne hji]
      exact h.live j hr hv ht

theorem Inv.read (h : Inv s) (ho : s.read i = .ok s') : Inv s' ∧ s'.pc = s.pc := by
  rw [St.read] at ho
  split at ho
  · cases ho
    exact ⟨h, rfl⟩
  · obtain ⟨ht, ho⟩ := unless_ok ho
    cases ho
    refine ⟨⟨h.count, h.unique, h.arg, h.out, h.locked, h.owner, h.touched, h.clean, ?_, ?_⟩,
      rfl⟩
    · intro j hr hv hj
      by_cases hji : j = i
      · subst hji
        simp only [St.setValid, update_self]
        exact ⟨ht, fun _ => trivial⟩
      · simp only [St.setValid, update_of_ne hji] at hv hj ⊢
        exact h.live j hr hv hj
    · intro j hr hv hj
      by_cases hji : j = i
      · subst hji
        simp only [update_self] at hj
        exact absurd hj ht
      · simp only [St.setValid, update_of_ne hji] at hv hj
        exact h.freed j hr hv hj

theorem Inv.invalidate (h : Inv s) (i : Slot) : Inv (s.setValid i false) := by
  refine ⟨h.count, h.unique, h.arg, h.out, h.locked, h.owner, h.touched, h.clean, ?_, ?_⟩
  · intro j hr hv
    by_cases hji : j = i
    · subst hji
      simp only [St.setValid, update_self] at hv
      cases hv
    · simp only [St.setValid, update_of_ne hji] at hv
      exact h.live j hr hv
  · intro j hr hv
    by_cases hji : j = i
    · subst hji
      simp only [St.setValid, update_self] at hv
      cases hv
    · simp only [St.setValid, update_of_ne hji] at hv
      exact h.freed j hr hv

theorem Inv.alloc (h : Inv s) (ht : (s.disk dev inum).type = 0) (v : Inode) :
    Inv (s.setDisk dev inum v) := by
  refine ⟨h.count, h.unique, h.arg, h.out, h.locked, h.owner, h.touched, h.clean, ?_, h.freed⟩
  intro j hr hv hj
  have hl := h.live j hr hv hj
  have hd : (s.setDisk dev inum v).disk (s.dev j) (s.inum j) = s.disk (s.dev j) (s.inum j) := by
    apply setDisk_of_ne
    rintro ⟨h₁, h₂⟩
    rw [h₁, h₂] at hl
    exact hl.1 ht
  change ((s.setDisk dev inum v).disk (s.dev j) (s.inum j)).type ≠ 0 ∧
    (s.touched j = false → s.ip j = (s.setDisk dev inum v).disk (s.dev j) (s.inum j))
  rw [hd]
  exact hl

theorem var_of_free {y : Pid × Nat} (hy : s.var y = none) (o : Option Slot)
    (hz : s.var z = some j) : update s.var y o z = some j := by
  rw [update_of_ne, hz]
  rintro rfl
  rw [hy] at hz
  cases hz

theorem Inv.share (h : Inv s) (hidle : s.pc p = .idle) (hi : 0 < s.ref i)
    (hn : s.var (p, n) = none) : Inv ((s.setRef i (s.ref i + 1)).setVar (p, n) (some i)) := by
  have hpos (j : Slot) (hj : 0 < (s.setRef i (s.ref i + 1)).ref j) : 0 < s.ref j := by
    by_cases hji : j = i
    · rw [hji]
      exact hi
    · simpa only [St.setRef, update_of_ne hji] using hj
  refine ⟨?_, ?_, ?_, ?_, h.locked, ?_, h.touched, h.clean, ?_, ?_⟩
  · intro j
    by_cases hji : j = i
    · subst hji
      simp only [St.setVar, St.setRef, update_self]
      exact (h.count j).enter hn (by simp) (by simp)
    · simp only [St.setVar, St.setRef, update_of_ne hji]
      exact (h.count j).keep hn (by simp [Ne.symm hji])
  · intro j k hj hk
    exact h.unique j k (hpos j hj) (hpos k hk)
  · intro q m j hq
    exact var_of_free hn (some i) (h.arg q m j hq)
  · intro q m hq
    have hne : (q, m) ≠ (p, n) := by
      rintro ⟨⟩
      simp only [St.setVar, St.setRef, hidle] at hq
      cases hq
    simp only [St.setVar, update_of_ne hne]
    exact h.out q m hq
  · intro q j hj
    obtain ⟨m, hm, hpc⟩ := h.owner q j hj
    exact ⟨m, var_of_free hn (some i) hm, hpc⟩
  · intro j hj
    exact h.live j (hpos j hj)
  · intro j hj
    exact h.freed j (hpos j hj)

theorem Inv.recycle (h : Inv s) (hidle : s.pc p = .idle) (hi : s.ref i = 0)
    (hn : s.var (p, n) = none)
    (hnew : ∀ j, 0 < s.ref j → ¬(s.dev j = dev ∧ s.inum j = inum)) :
    Inv ((s.recycle i dev inum).setVar (p, n) (some i)) := by
  have hold (j : Slot) (hji : j ≠ i) : (s.recycle i dev inum).ref j = s.ref j ∧
      (s.recycle i dev inum).dev j = s.dev j ∧ (s.recycle i dev inum).inum j = s.inum j ∧
      (s.recycle i dev inum).valid j = s.valid j := by
    simp only [St.recycle, update_of_ne hji, and_self]
  have hself : (s.recycle i dev inum).dev i = dev ∧ (s.recycle i dev inum).inum i = inum ∧
      (s.recycle i dev inum).valid i = false := by
    simp only [St.recycle, update_self, and_self]
  refine ⟨?_, ?_, ?_, ?_, h.locked, ?_, h.touched, h.clean, ?_, ?_⟩
  · intro j
    by_cases hji : j = i
    · subst hji
      have hc := h.count j
      rw [hi] at hc
      simp only [St.setVar, St.recycle, update_self]
      exact hc.enter hn (by simp) (by simp)
    · simp only [St.setVar, (hold j hji).1]
      exact (h.count j).keep hn (by simp [Ne.symm hji])
  · intro j k hj hk
    simp only [St.setVar] at hj hk ⊢
    by_cases hji : j = i
    · subst hji
      by_cases hkj : k = j
      · exact fun _ _ => hkj.symm
      · rw [(hold k hkj).1] at hk
        rw [hself.1, hself.2.1, (hold k hkj).2.1, (hold k hkj).2.2.1]
        intro h₁ h₂
        exact absurd ⟨h₁.symm, h₂.symm⟩ (hnew k hk)
    · rw [(hold j hji).1] at hj
      by_cases hki : k = i
      · subst hki
        rw [hself.1, hself.2.1, (hold j hji).2.1, (hold j hji).2.2.1]
        intro h₁ h₂
        exact absurd ⟨h₁, h₂⟩ (hnew j hj)
      · rw [(hold k hki).1] at hk
        rw [(hold j hji).2.1, (hold j hji).2.2.1, (hold k hki).2.1, (hold k hki).2.2.1]
        exact h.unique j k hj hk
  · intro q m j hq
    exact var_of_free hn (some i) (h.arg q m j hq)
  · intro q m hq
    have hne : (q, m) ≠ (p, n) := by
      rintro ⟨⟩
      simp only [St.setVar, St.recycle, hidle] at hq
      cases hq
    simp only [St.setVar, update_of_ne hne]
    exact h.out q m hq
  · intro q j hj
    obtain ⟨m, hm, hpc⟩ := h.owner q j hj
    exact ⟨m, var_of_free hn (some i) hm, hpc⟩
  · intro j hr hv
    simp only [St.setVar] at hr hv ⊢
    by_cases hji : j = i
    · subst hji
      rw [hself.2.2] at hv
      cases hv
    · rw [(hold j hji).1] at hr
      rw [(hold j hji).2.2.2] at hv
      rw [(hold j hji).2.1, (hold j hji).2.2.1]
      exact h.live j hr hv
  · intro j hr hv
    simp only [St.setVar] at hr hv ⊢
    by_cases hji : j = i
    · subst hji
      rw [hself.2.2] at hv
      cases hv
    · rw [(hold j hji).1] at hr
      rw [(hold j hji).2.2.2] at hv
      exact h.freed j hr hv

theorem Inv.drop (h : Inv s) (hidle : s.pc p = .idle) (hn : s.var (p, n) = some i)
    (hother : s.holder i = some p → ∃ m, m ≠ n ∧ s.var (p, m) = some i) :
    Inv ((s.setRef i (s.ref i - 1)).setVar (p, n) none) := by
  have hpos (j : Slot) (hj : 0 < (s.setRef i (s.ref i - 1)).ref j) : 0 < s.ref j := by
    by_cases hji : j = i
    · rw [hji]
      exact h.pos_of_var hn
    · simpa only [St.setRef, update_of_ne hji] using hj
  refine ⟨?_, ?_, ?_, ?_, h.locked, ?_, h.touched, h.clean, ?_, ?_⟩
  · intro j
    by_cases hji : j = i
    · subst hji
      simp only [St.setVar, St.setRef, update_self]
      exact (h.count j).leave hn (by simp) (by simp)
    · simp only [St.setVar, St.setRef, update_of_ne hji]
      exact (h.count j).keep hn (by simp [Ne.symm hji])
  · intro j k hj hk
    exact h.unique j k (hpos j hj) (hpos k hk)
  · intro q m j hq
    have hne : (q, m) ≠ (p, n) := by
      rintro ⟨⟩
      simp only [St.setVar, St.setRef, hidle] at hq
      cases hq
    simp only [St.setVar, update_of_ne hne]
    exact h.arg q m j hq
  · intro q m hq
    by_cases hne : (q, m) = (p, n)
    · simp only [St.setVar, hne, update_self]
    · simp only [St.setVar, update_of_ne hne]
      exact h.out q m hq
  · intro q j hj
    obtain ⟨m, hm, hpc⟩ := h.owner q j hj
    by_cases hne : (q, m) = (p, n)
    · obtain ⟨rfl, rfl⟩ := Prod.mk.inj hne
      obtain rfl := Option.some.inj (hn.symm.trans hm)
      obtain ⟨m', hm', hv'⟩ := hother hj
      refine ⟨m', ?_, ?_⟩
      · have hne' : (q, m') ≠ (q, m) := fun he => hm' (Prod.mk.inj he).2
        simp only [St.setVar, update_of_ne hne']
        exact hv'
      · simp only [St.setVar, St.setRef, hidle]
        exact fun he => by cases he
    · refine ⟨m, ?_, hpc⟩
      simp only [St.setVar, update_of_ne hne]
      exact hm
  · intro j hj
    exact h.live j (hpos j hj)
  · intro j hj
    exact h.freed j (hpos j hj)

theorem cached_some (h : s.cached dev inum = some i) : 0 < s.ref i := by
  have hi := List.find?_some h
  rw [decide_eq_true_eq] at hi
  exact hi.1

theorem cached_none (h : s.cached dev inum = none) (j : Slot) (hj : 0 < s.ref j) :
    ¬(s.dev j = dev ∧ s.inum j = inum) := by
  have hj' := List.find?_eq_none.1 h j (List.mem_finRange j)
  rw [decide_eq_true_eq] at hj'
  exact fun hk => hj' ⟨hj, hk⟩

theorem empty_some (h : s.empty = some i) : s.ref i = 0 := by
  have hi := List.find?_some h
  rwa [decide_eq_true_eq] at hi

theorem Inv.iget (h : Inv s) (hidle : s.pc p = .idle) (hn : s.var (p, n) = none)
    (ho : s.iget (p, n) dev inum = .ok s') : Inv s' := by
  rw [St.iget] at ho
  split at ho
  · next i hi =>
    cases ho
    exact h.share hidle (cached_some hi) hn
  · next hc =>
    split at ho
    · next i hi =>
      cases ho
      exact h.recycle hidle (empty_some hi) hn (cached_none hc)
    · cases ho

theorem Inv.give (h : Inv s) (hp : s.pc p = .idle) (hq : s.pc q = .idle)
    (hn : s.var (p, n) = some i) (hm : s.var (q, m) = none) (hl : s.holder i ≠ some p) :
    Inv ((s.setVar (p, n) none).setVar (q, m) (some i)) := by
  have hne : (p, n) ≠ (q, m) := by
    intro he
    rw [he, hm] at hn
    cases hn
  have h₁ := h.share hq (h.pos_of_var hn) hm
  have h₂ := h₁.drop (p := p) (n := n) (i := i) hp (var_of_free hm (some i) hn)
    fun hi => absurd hi hl
  have he : ((((s.setRef i (s.ref i + 1)).setVar (q, m) (some i)).setRef i
      (((s.setRef i (s.ref i + 1)).setVar (q, m) (some i)).ref i - 1)).setVar (p, n) none) =
      (s.setVar (p, n) none).setVar (q, m) (some i) := by
    simp only [St.setRef, St.setVar, update_self, Nat.add_sub_cancel,
      update_idem, update_eq_self]
    rw [update_comm hne]
  rwa [he] at h₂

theorem acquiresleep_ok (h : s.acquiresleep p i = .ok s') :
    s.holder i = none ∧ s' = s.setHolder i (some p) := by
  rw [St.acquiresleep] at h
  obtain ⟨hi, h⟩ := if_ok h
  cases h
  exact ⟨hi, rfl⟩

theorem goto_goto (s : St) (p : Pid) (x y : Pc) : (s.goto p x).goto p y = s.goto p y := by
  simp only [St.goto, update_idem]

theorem Inv.goto_locked (h : Inv s) (harg : x.arg = some (n, i)) (hout : x.out = none)
    (hl : x.locked = some i) (hv : s.var (p, n) = some i) (hi : s.holder i = some p)
    (hc : x.changed = some i ∨ s.touched i = false)
    (hf : ∀ j, (s.pc p).frees = some j → x.frees = some j ∨ s.valid j = false) :
    Inv (s.goto p x) := by
  apply h.goto
  · intro n' j hj
    rw [harg] at hj
    cases hj
    exact hv
  · intro n' hn'
    rw [hout] at hn'
    cases hn'
  · intro j hj
    rw [hl] at hj
    cases hj
    exact hi
  · rintro n' j rfl
    cases hl
  · intro j hj hne
    rw [hl] at hj
    cases hj
    exact hc.resolve_left hne
  · exact hf

theorem Inv.goto_unlocked (h : Inv s) (harg : x.arg = some (n, i)) (hout : x.out = none)
    (hl : x.locked = none) (hv : s.var (p, n) = some i)
    (hdec : x = .iputDec n i → s.holder i ≠ some p) (hf : (s.pc p).frees = none) :
    Inv (s.goto p x) := by
  apply h.goto
  · intro n' j hj
    rw [harg] at hj
    cases hj
    exact hv
  · intro n' hn'
    rw [hout] at hn'
    cases hn'
  · intro j hj
    rw [hl] at hj
    cases hj
  · rintro n' j rfl
    cases harg
    exact hdec rfl
  · intro j hj
    rw [hl] at hj
    cases hj
  · intro j hj
    rw [hf] at hj
    cases hj

theorem iget_goto {y : Pid × Nat} (h : s.iget y dev inum = .ok s') (p : Pid) (x : Pc) :
    (s.goto p x).iget y dev inum = .ok (s'.goto p x) := by
  rw [St.iget] at h ⊢
  rw [show (s.goto p x).cached dev inum = s.cached dev inum from rfl,
    show (s.goto p x).empty = s.empty from rfl]
  split at h
  · cases h
    rfl
  · split at h
    · cases h
      rfl
    · cases h

theorem Inv.touched_of_none (h : Inv s) (hi : s.holder i = none) : s.touched i = false := by
  cases ht : s.touched i with
  | false => rfl
  | true => exact absurd hi (h.touched i ht)

theorem Inv.acquire (h : Inv s) (harg : (s.pc p).arg = some (n, i))
    (hdec : s.pc p ≠ .iputDec n i) (hf : (s.pc p).frees = none)
    (hx : x.arg = some (n, i) ∧ x.out = none ∧ x.locked = some i)
    (ho : (do let s ← s.acquiresleep p i; .ok (s.goto p x)) = (.ok s' : Except Fault St)) :
    Inv s' := by
  obtain ⟨s₁, h₁, ho⟩ := bind_ok ho
  obtain ⟨hi, rfl⟩ := acquiresleep_ok h₁
  cases ho
  have hv := h.arg p n i harg
  apply (h.lock hi hv hdec).goto_locked hx.1 hx.2.1 hx.2.2 hv (update_self ..)
  · exact .inr (h.touched_of_none hi)
  · intro j hj
    rw [show (s.setHolder i (some p)).pc = s.pc from rfl, hf] at hj
    cases hj

theorem Inv.phase (h : Inv s) (hpc : s.pc p = x) (harg : x.arg = some (n, i))
    (hl : x.locked = some i) : s.var (p, n) = some i ∧ s.holder i = some p ∧
      (x.changed ≠ some i → s.touched i = false) := by
  subst hpc
  exact ⟨h.arg p n i harg, h.locked p i hl, h.clean p i hl⟩

theorem Inv.procStep (h : Inv s) (ho : procStep ninodes s p = .ok s') : Inv s' := by
  have hnone (hf : (s.pc p).frees = none) (x : Pc) (j : Slot) (hj : (s.pc p).frees = some j) :
      x.frees = some j ∨ s.valid j = false := by
    rw [hf] at hj
    cases hj
  rw [Icache.procStep] at ho
  cases hpc : s.pc p with
  | idle =>
    rw [hpc] at ho
    cases ho
  | ilock n i =>
    rw [hpc] at ho
    exact h.acquire (by rw [hpc]; rfl) (by rw [hpc]; nofun) (by rw [hpc]; rfl)
      ⟨rfl, rfl, rfl⟩ ho
  | ilockRead n i =>
    rw [hpc] at ho
    obtain ⟨s₁, h₁, ho⟩ := bind_ok ho
    cases ho
    obtain ⟨hi, he⟩ := h.read h₁
    apply hi.leave
    rw [he, hpc]
    rfl
  | ialloc dev type inum n =>
    have hn := h.out p n (by rw [hpc]; rfl)
    have hout (n' : Nat) (hn' : some n = some n') : s.var (p, n') = none := by
      cases hn'
      exact hn
    have hf : (s.pc p).frees = none := by rw [hpc]; rfl
    rw [hpc] at ho
    simp only at ho
    obtain ⟨-, ho⟩ := if_ok ho
    split at ho
    · next ht =>
      cases ho
      exact (h.alloc ht _).goto_free rfl rfl hout hf
    · cases ho
      exact h.goto_free rfl rfl hout hf
  | iget dev inum n =>
    have hn := h.out p n (by rw [hpc]; rfl)
    have hidle := h.leave (p := p) (by rw [hpc]; rfl)
    rw [hpc] at ho
    obtain ⟨s₁, h₁, ho⟩ := bind_ok ho
    cases ho
    exact hidle.iget (update_self ..) hn (iget_goto h₁ p .idle)
  | iput n i =>
    rw [hpc] at ho
    exact h.acquire (by rw [hpc]; rfl) (by rw [hpc]; nofun) (by rw [hpc]; rfl)
      ⟨rfl, rfl, rfl⟩ ho
  | iputTest n i =>
    obtain ⟨hv, hi, ht⟩ := h.phase hpc rfl rfl
    have ht := ht nofun
    have hf : (s.pc p).frees = none := by rw [hpc]; rfl
    rw [hpc] at ho
    simp only at ho
    split at ho
    · cases ho
      exact h.goto_locked rfl rfl rfl hv hi (.inr ht) (hnone hf _)
    · cases ho
      exact h.goto_locked rfl rfl rfl hv hi (.inr ht) (hnone hf _)
  | iputCount n i =>
    obtain ⟨hv, hi, ht⟩ := h.phase hpc rfl rfl
    have ht := ht nofun
    have hf : (s.pc p).frees = none := by rw [hpc]; rfl
    rw [hpc] at ho
    simp only at ho
    split at ho
    · cases ho
      exact h.goto_locked rfl rfl rfl hv hi (.inr ht) (hnone hf _)
    · cases ho
      exact h.goto_locked rfl rfl rfl hv hi (.inr ht) (hnone hf _)
  | itrunc n i =>
    obtain ⟨hv, hi, -⟩ := h.phase hpc rfl rfl
    have hf : (s.pc p).frees = none := by rw [hpc]; rfl
    rw [hpc] at ho
    cases ho
    have h₁ : Inv (s.goto p (.itruncUpdate n i)) :=
      h.goto_locked rfl rfl rfl hv hi (.inl rfl) (hnone hf _)
    have hpc₁ : (s.goto p (.itruncUpdate n i)).pc p = .itruncUpdate n i :=
      update_self ..
    exact h₁.setIp hi (by rw [hpc₁]; exact fun _ => rfl) (.inl rfl)
  | itruncUpdate n i =>
    obtain ⟨hv, hi, -⟩ := h.phase hpc rfl rfl
    have hf : (s.pc p).frees = none := by rw [hpc]; rfl
    rw [hpc] at ho
    cases ho
    exact (h.iupdate hi).goto_locked rfl rfl rfl hv hi (.inr (update_self ..)) (hnone hf _)
  | iputType n i =>
    obtain ⟨hv, hi, -⟩ := h.phase hpc rfl rfl
    have hf : (s.pc p).frees = none := by rw [hpc]; rfl
    rw [hpc] at ho
    cases ho
    have h₁ : Inv (s.goto p (.iputUpdate n i)) :=
      h.goto_locked rfl rfl rfl hv hi (.inl rfl) (hnone hf _)
    have hpc₁ : (s.goto p (.iputUpdate n i)).pc p = .iputUpdate n i := update_self ..
    exact h₁.setIp hi (by rw [hpc₁]; exact fun _ => rfl) (.inr ⟨rfl, by rw [hpc₁]; rfl⟩)
  | iputUpdate n i =>
    obtain ⟨hv, hi, -⟩ := h.phase hpc rfl rfl
    rw [hpc] at ho
    cases ho
    apply (h.iupdate hi).goto_locked rfl rfl rfl hv hi (.inr (update_self ..))
    intro j hj
    rw [show (s.iupdate i).pc = s.pc from rfl, hpc] at hj
    exact .inl hj
  | iputInvalid n i =>
    obtain ⟨hv, hi, ht⟩ := h.phase hpc rfl rfl
    have ht := ht nofun
    rw [hpc] at ho
    cases ho
    apply (h.invalidate i).goto_locked rfl rfl rfl hv hi (.inr ht)
    intro j hj
    rw [show (s.setValid i false).pc = s.pc from rfl, hpc] at hj
    cases hj
    exact .inr (update_self ..)
  | iputUnlock n i =>
    obtain ⟨hv, hi, ht⟩ := h.phase hpc rfl rfl
    have ht := ht nofun
    have h₁ := h.leave (p := p) (by rw [hpc]; rfl)
    have hpc₁ : (s.goto p .idle).pc p = .idle := update_self ..
    rw [hpc] at ho
    cases ho
    have h₂ := h₁.unlock (p := p) (i := i) hi (by rw [hpc₁]; nofun) ht
    have h₃ : Inv (((s.goto p .idle).setHolder i none).goto p (.iputDec n i)) := by
      apply h₂.goto_unlocked rfl rfl rfl hv
      · intro _
        simp only [St.setHolder, update_self]
        nofun
      · rw [show ((s.goto p .idle).setHolder i none).pc = (s.goto p .idle).pc from rfl, hpc₁]
        rfl
    rw [show (s.goto p .idle).setHolder i none = (s.setHolder i none).goto p .idle from rfl,
      goto_goto] at h₃
    exact h₃
  | iputDec n i =>
    have hv := h.arg p n i (by rw [hpc]; rfl)
    have h₁ := h.leave (p := p) (by rw [hpc]; rfl)
    rw [hpc] at ho
    cases ho
    have h₂ := h₁.drop (p := p) (n := n) (i := i) (update_self ..) hv (by
      intro hi
      obtain ⟨m, hm, hne⟩ := h.owner p i hi
      refine ⟨m, ?_, hm⟩
      rintro rfl
      exact hne hpc)
    exact h₂

theorem arg_ok (h : s.arg p n = .ok i) : s.var (p, n) = some i := by
  rw [St.arg] at h
  split at h
  · next hi =>
    cases h
    exact hi
  · cases h

theorem Inv.callStep {c : Call} (h : Inv s) (hl : legal s (.call p c) = true)
    (ho : callStep s p c = .ok s') : Inv s' := by
  unfold Icache.callStep at ho
  obtain ⟨hidle, ho⟩ := if_ok ho
  have hf : (s.pc p).frees = none := by rw [hidle]; rfl
  cases c with
  | iget dev inum n => exact h.iget hidle (of_decide_eq_true hl) ho
  | ialloc dev type n =>
    cases ho
    apply h.goto_free rfl rfl _ hf
    intro n' hn'
    cases hn'
    exact of_decide_eq_true hl
  | idup n m =>
    obtain ⟨i, hi, ho⟩ := bind_ok ho
    cases ho
    exact h.share hidle (h.pos_of_var (arg_ok hi)) (of_decide_eq_true hl)
  | ilock n =>
    obtain ⟨i, hi, ho⟩ := bind_ok ho
    split at ho
    · cases ho
    · cases ho
      exact h.goto_unlocked rfl rfl rfl (arg_ok hi) nofun hf
  | iunlock n =>
    obtain ⟨i, hi, ho⟩ := bind_ok ho
    obtain ⟨hh, ho⟩ := unless_ok ho
    cases ho
    rw [legal, arg_ok hi] at hl
    obtain ⟨hh, -⟩ := not_or.1 hh
    exact h.unlock (not_not.1 hh) (by rw [hidle]; nofun) (by simpa using hl)
  | iput n =>
    obtain ⟨i, hi, ho⟩ := bind_ok ho
    cases ho
    exact h.goto_unlocked rfl rfl rfl (arg_ok hi) nofun hf
  | iupdate n =>
    obtain ⟨i, hi, ho⟩ := bind_ok ho
    cases ho
    rw [legal, arg_ok hi] at hl
    exact h.iupdate (of_decide_eq_true hl)
  | modify n v =>
    obtain ⟨i, hi, ho⟩ := bind_ok ho
    cases ho
    rw [legal, arg_ok hi] at hl
    obtain ⟨hh, ht⟩ := of_decide_eq_true hl
    exact h.setIp hh (by rw [hidle]; nofun) (.inl ht)
  | give n q m =>
    obtain ⟨i, hi, ho⟩ := bind_ok ho
    cases ho
    rw [legal, arg_ok hi] at hl
    obtain ⟨hm, hq, hh⟩ := of_decide_eq_true hl
    exact h.give hidle hq (arg_ok hi) hm (of_decide_eq_true hh)

theorem Inv.step {e : Event} (h : Inv s) (hl : legal s e = true)
    (ho : step ninodes s e = .ok s') : Inv s' := by
  cases e with
  | call p c => exact h.callStep hl ho
  | step p => exact h.procStep ho

theorem inv_boot (disk : Nat → Nat → Inode) : Inv (boot disk) := by
  constructor
  · intro i
    exact counts_zero fun _ => rfl
  · intro i j hi
    cases hi
  · intro p n i hi
    cases hi
  · intro p n hn
    cases hn
  · intro p i hi
    cases hi
  · intro p i hi
    cases hi
  · intro i hi
    cases hi
  · intro p i hi
    cases hi
  · intro i hi
    cases hi
  · intro i hi
    cases hi

/-- An entry in use keeps its inode, and is made invalid only under its lock. -/
def Keeps (s s' : St) : Prop :=
  ∀ i, 0 < s.ref i → s'.dev i = s.dev i ∧ s'.inum i = s.inum i ∧
    (s.holder i = none → s'.valid i = s.valid i)

theorem keeps_of_eq (hd : s'.dev = s.dev) (hi : s'.inum = s.inum) (hv : s'.valid = s.valid) :
    Keeps s s' := by
  intro i _
  rw [hd, hi, hv]
  exact ⟨rfl, rfl, fun _ => rfl⟩

theorem keeps_setValid (hi : s.holder i = some p) (hd : s'.dev = s.dev) (hn : s'.inum = s.inum)
    (hv : s'.valid = update s.valid i b) : Keeps s s' := by
  intro j _
  rw [hd, hn, hv]
  refine ⟨rfl, rfl, fun hj => ?_⟩
  rw [update_of_ne]
  rintro rfl
  rw [hi] at hj
  cases hj

theorem keeps_iget {y : Pid × Nat} (h : s.iget y dev inum = .ok s') : Keeps s s' := by
  rw [St.iget] at h
  split at h
  · cases h
    exact keeps_of_eq rfl rfl rfl
  · split at h
    · next i hi =>
      cases h
      intro j hj
      have hji : j ≠ i := by
        rintro rfl
        rw [empty_some hi] at hj
        cases hj
      simp only [St.setVar, St.recycle, update_of_ne hji, true_and]
      exact fun _ => trivial
    · cases h

theorem keeps_callStep {c : Call} (ho : callStep s p c = .ok s') : Keeps s s' := by
  unfold Icache.callStep at ho
  obtain ⟨-, ho⟩ := if_ok ho
  cases c with
  | iget dev inum n => exact keeps_iget ho
  | ialloc dev type n =>
    cases ho
    exact keeps_of_eq rfl rfl rfl
  | ilock n =>
    obtain ⟨i, -, ho⟩ := bind_ok ho
    split at ho
    · cases ho
    · cases ho
      exact keeps_of_eq rfl rfl rfl
  | iunlock n =>
    obtain ⟨i, -, ho⟩ := bind_ok ho
    split at ho
    · cases ho
    · cases ho
      exact keeps_of_eq rfl rfl rfl
  | idup n m | iput n | iupdate n | modify n v | give n q m =>
    obtain ⟨i, -, ho⟩ := bind_ok ho
    cases ho
    exact keeps_of_eq rfl rfl rfl

theorem Inv.keeps_procStep (h : Inv s) (ho : Icache.procStep ninodes s p = .ok s') :
    Keeps s s' := by
  rw [Icache.procStep] at ho
  cases hpc : s.pc p with
  | idle =>
    rw [hpc] at ho
    cases ho
  | ilock n i | iput n i =>
    rw [hpc] at ho
    obtain ⟨s₁, h₁, ho⟩ := bind_ok ho
    obtain ⟨-, rfl⟩ := acquiresleep_ok h₁
    cases ho
    exact keeps_of_eq rfl rfl rfl
  | ilockRead n i =>
    have hi := h.locked p i (by rw [hpc]; rfl)
    rw [hpc] at ho
    obtain ⟨s₁, h₁, ho⟩ := bind_ok ho
    cases ho
    rw [St.read] at h₁
    split at h₁
    · cases h₁
      exact keeps_of_eq rfl rfl rfl
    · split at h₁
      · cases h₁
      · cases h₁
        exact keeps_setValid hi rfl rfl rfl
  | ialloc dev type inum n =>
    rw [hpc] at ho
    simp only at ho
    obtain ⟨-, ho⟩ := if_ok ho
    split at ho
    · cases ho
      exact keeps_of_eq rfl rfl rfl
    · cases ho
      exact keeps_of_eq rfl rfl rfl
  | iget dev inum n =>
    rw [hpc] at ho
    obtain ⟨s₁, h₁, ho⟩ := bind_ok ho
    cases ho
    exact fun i hi => keeps_iget h₁ i hi
  | iputTest n i | iputCount n i =>
    rw [hpc] at ho
    simp only at ho
    split at ho
    · cases ho
      exact keeps_of_eq rfl rfl rfl
    · cases ho
      exact keeps_of_eq rfl rfl rfl
  | iputInvalid n i =>
    have hi := h.locked p i (by rw [hpc]; rfl)
    rw [hpc] at ho
    cases ho
    exact keeps_setValid hi rfl rfl rfl
  | itrunc n i | itruncUpdate n i | iputType n i | iputUpdate n i | iputUnlock n i
  | iputDec n i =>
    rw [hpc] at ho
    cases ho
    exact keeps_of_eq rfl rfl rfl

theorem Inv.keeps {e : Event} (h : Inv s) (ho : Icache.step ninodes s e = .ok s') :
    Keeps s s' := by
  cases e with
  | call p c => exact keeps_callStep ho
  | step p => exact h.keeps_procStep ho

theorem Inv.exec {disk : Nat → Nat → Inode} {es : List Event}
    (hx : Exec (Icache.step ninodes) (fun s e => legal s e) (boot disk) es s) : Inv s :=
  hx.invariant (inv_boot disk) fun _ _ _ h hl ho => h.step hl ho

/-- An inode has one entry in use, references are counted exactly, an entry in use is not recycled,
and an unlocked valid one is as on disk. -/
theorem icache_coherence {disk : Nat → Nat → Inode} {es : List Event}
    (hx : Exec (Icache.step ninodes) (fun s e => legal s e) (boot disk) es s) :
    (∀ i j, 0 < s.ref i → 0 < s.ref j → s.dev i = s.dev j → s.inum i = s.inum j → i = j) ∧
      (∀ i, Counts (s.ref i) (· == some i) s.var) ∧
      (∀ e s', Icache.step ninodes s e = .ok s' → Keeps s s') ∧
      ∀ i, 0 < s.ref i → s.valid i = true → s.holder i = none →
        s.ip i = s.disk (s.dev i) (s.inum i) := by
  have h := Inv.exec hx
  refine ⟨h.unique, h.count, fun e s' ho => h.keeps ho, ?_⟩
  intro i hr hv hi
  have ht : (s.ip i).type ≠ 0 := by
    intro ht
    obtain ⟨p, hp⟩ := h.freed i hr hv ht
    rw [h.locked p i (Pc.locked_of_frees hp)] at hi
    cases hi
  exact (h.live i hr hv ht).2 (h.touched_of_none hi)

def oneFile (_ k : Nat) : Inode := ⟨if k = 1 then 2 else 0, 0, 0, 1, 0, fun _ => 0⟩

/-- Process 1 allocates the inode that process 0 has freed and still refers to. -/
def windowRun : List Event :=
  [.call 0 (.iget 1 1 0), .call 0 (.ilock 0), .step 0, .step 0,
    .call 0 (.modify 0 ⟨2, 0, 0, 0, 0, fun _ => 0⟩), .call 0 (.iupdate 0), .call 0 (.iunlock 0),
    .call 0 (.iput 0), .step 0, .step 0, .step 0, .step 0, .step 0, .step 0, .step 0, .step 0,
    .step 0, .call 1 (.ialloc 1 3 0), .step 1, .step 1, .step 0, .call 1 (.ilock 0), .step 1,
    .step 1, .call 1 (.iunlock 0)]

theorem icache_coherence_windowRun : ∃ s,
    Exec (Icache.step 4) (fun s e => legal s e) (boot oneFile) windowRun s ∧
      s.ref 0 = 1 ∧ s.valid 0 = true ∧ s.ip 0 = s.disk (s.dev 0) (s.inum 0) ∧
      (s.ip 0).type = 3 := by
  have hr : (runLegal (Icache.step 4) legal (boot oneFile) windowRun).any (fun s =>
      s.ref 0 = 1 ∧ s.valid 0 = true ∧ s.holder 0 = none ∧ (s.ip 0).type = 3) = true := by
    decide +kernel
  obtain ⟨s, hs, hq⟩ := (Option.any_eq_true _ _).1 hr
  obtain ⟨h₁, h₂, h₃, h₄⟩ := of_decide_eq_true hq
  have he := exec_of_runLegal _ _ _ _ hs
  have hc := (icache_coherence he).2.2.2 0 (by rw [h₁]; exact Nat.one_pos) h₂ h₃
  exact ⟨s, he, h₁, h₂, hc, h₄⟩

end Xv6.Icache
