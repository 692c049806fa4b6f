import Xv6.Vm.Tables
import Mathlib.Data.List.Range

namespace Xv6.Vm
open Lib
set_option autoImplicit true

variable {L : Image} {k k' : Kmem} {d d' : Pgdir} {u w p lo hi n oldsz newsz : Nat}

/-- The number of pages that `[0, sz)` takes. -/
def pagesUp (sz : Nat) : Nat := (sz + (pgSize - 1)) / pgSize

theorem pgRoundUp_eq (h : sz ≤ kernBase) : pgRoundUp sz = pagesUp sz * pgSize := by
  simp only [kernBase] at h
  simp only [pgRoundUp, pagesUp, pgSize]
  omega

theorem page_lt (sz u : Nat) : u * pgSize < sz ↔ u < pagesUp sz := by
  simp only [pagesUp, pgSize]
  omega

theorem pagesUp_le (h : sz ≤ kernBase) : pagesUp sz ≤ nUser := by
  simp only [kernBase] at h
  simp only [pagesUp, pgSize, nUser]
  omega

def Kmem.push (k : Kmem) (p : Nat) : Kmem := { k.fill p 1 with freelist := p :: k.freelist }

def Kmem.release (k : Kmem) (ps : List Nat) : Kmem := ps.foldl Kmem.push k

/-- The entries of the pages from `lo` to `hi` are cleared. -/
def Pgdir.clear (d : Pgdir) (lo hi : Nat) : Pgdir :=
  { d with pde := fun i => (d.pde i).map fun t => { t with
      pte := fun j => if lo ≤ i.val * 1024 + j.val ∧ i.val * 1024 + j.val < hi then none else t.pte j } }

def Pgdir.mapped (d : Pgdir) (lo n : Nat) : List Nat :=
  (List.range' lo n).filterMap fun u => (d.at u).map Pte.ppn

theorem kfree_ok (h : L.InRange p) (k : Kmem) : kfree L k p = .ok (k.push p) := by
  rw [kfree, if_neg (by simp only [Image.InRange] at h; omega)]
  rfl

theorem Image.InRange.ne_zero (h : L.InRange p) : p ≠ 0 := by
  have hb := L.bss
  have ht := h.1
  omega

theorem mapped_cons_none (hu : u < hi) (h : d.at u = none) :
    d.mapped u (hi - u) = d.mapped (u + 1) (hi - (u + 1)) := by
  have hn : hi - u = hi - (u + 1) + 1 := by omega
  rw [Pgdir.mapped, hn, List.range'_succ, List.filterMap_cons_none (by rw [h]; rfl)]
  rfl

theorem mapped_cons_some {e : Pte} (hu : u < hi) (h : d.at u = some e) :
    d.mapped u (hi - u) = e.ppn :: d.mapped (u + 1) (hi - (u + 1)) := by
  have hn : hi - u = hi - (u + 1) + 1 := by omega
  rw [Pgdir.mapped, hn, List.range'_succ, List.filterMap_cons_some (b := e.ppn) (by rw [h]; rfl)]
  rfl

theorem mapped_congr (h : ∀ w, lo ≤ w → w < lo + n → d'.at w = d.at w) :
    d'.mapped lo n = d.mapped lo n := by
  apply List.filterMap_congr
  intro w hw
  have hw := List.mem_range'_1.1 hw
  rw [h w hw.1 hw.2]

theorem mapped_skip (huv : u ≤ v) (h : ∀ w, u ≤ w → w < v → d.at w = none) :
    d.mapped u (hi - u) = d.mapped v (hi - v) := by
  induction huv with
  | refl => rfl
  | step huv ih =>
    next v =>
    rw [ih fun w h₁ h₂ => h w h₁ (by omega)]
    by_cases hv : v < hi
    · exact mapped_cons_none hv (h v huv (Nat.lt_succ_self v))
    · rw [Nat.sub_eq_zero_of_le (by omega), Nat.sub_eq_zero_of_le (by omega)]
      rfl

theorem index_page (u : Nat) (hu : u < nPages) :
    (pdx (u * pgSize)).val * 1024 + (ptx (u * pgSize)).val = u := by
  rw [pdx_page, ptx_page]
  simp only [nPages] at hu
  omega

theorem at_clear (hw : w < nPages) :
    (d.clear lo hi).at w = if lo ≤ w ∧ w < hi then none else d.at w := by
  rw [Pgdir.at, Pgdir.at, Pgdir.pte, Pgdir.pte, Pgdir.clear]
  dsimp only
  cases d.pde (pdx (w * pgSize)) with
  | none => simp
  | some t =>
    rw [Option.map_some, Option.bind_some, Option.bind_some]
    dsimp only
    rw [index_page w hw]

theorem table_clear (i : Fin 1024) :
    ((d.clear lo hi).pde i).map Table.page = (d.pde i).map Table.page := by
  rw [Pgdir.clear]
  dsimp only
  rw [Option.map_map]
  rfl

theorem tables_clear : (d.clear lo hi).tables = d.tables :=
  tables_congr table_clear

theorem Pgdir.ext_at (hpage : d'.page = d.page)
    (htables : ∀ i, (d'.pde i).map Table.page = (d.pde i).map Table.page)
    (hat : ∀ w, w < nPages → d'.at w = d.at w) : d' = d := by
  have hentry (i j : Fin 1024) : (d'.pde i).bind (Table.pte · j) = (d.pde i).bind (Table.pte · j) := by
    have hdir : pdx ((i.val * 1024 + j.val) * pgSize) = i := by
      apply Fin.ext
      rw [pdx_page]
      omega
    have htab : ptx ((i.val * 1024 + j.val) * pgSize) = j := by
      apply Fin.ext
      rw [ptx_page]
      omega
    have hw := hat (i.val * 1024 + j.val) (by simp only [nPages]; omega)
    rwa [Pgdir.at, Pgdir.at, Pgdir.pte, Pgdir.pte, hdir, htab] at hw
  have hpde : d'.pde = d.pde := by
    funext i
    have hi := htables i
    have hj := hentry i
    cases h' : d'.pde i with
    | none =>
      rw [h'] at hi
      exact (Option.map_eq_none_iff.1 hi.symm).symm
    | some t' =>
      rw [h'] at hi hj
      obtain ⟨t, ht, hpage⟩ := Option.map_eq_some_iff.1 hi.symm
      rw [ht] at hj
      obtain ⟨page, pte⟩ := t
      obtain ⟨page', pte'⟩ := t'
      obtain rfl : page = page' := hpage
      obtain rfl : pte' = pte := funext hj
      exact ht.symm
  obtain ⟨page, pde⟩ := d
  obtain ⟨page', pde'⟩ := d'
  obtain rfl : page' = page := hpage
  obtain rfl : pde' = pde := hpde
  rfl

theorem clear_of_le (h : hi ≤ lo) : d.clear lo hi = d := by
  apply Pgdir.ext_at
  · rfl
  · exact table_clear
  · intro w hw
    rw [at_clear hw, if_neg (by omega)]

theorem clear_skip (huv : u ≤ v) (h : ∀ w, u ≤ w → w < v → d.at w = none) :
    d.clear v hi = d.clear u hi := by
  apply Pgdir.ext_at
  · rfl
  · intro i
    rw [table_clear, table_clear]
  · intro w hw
    rw [at_clear hw, at_clear hw]
    by_cases hlt : u ≤ w ∧ w < v
    · rw [h w hlt.1 hlt.2, if_neg (by omega)]
      split <;> rfl
    · by_cases hhi : v ≤ w ∧ w < hi
      · rw [if_pos hhi, if_pos (by omega)]
      · rw [if_neg hhi, if_neg (by omega)]

theorem clear_setPte (hs : (d.pde (pdx (u * pgSize))).isSome) (hu : u < nPages) (hhi : u < hi) :
    (d.setPte (u * pgSize) none).clear (u + 1) hi = d.clear u hi := by
  apply Pgdir.ext_at
  · exact page_setPte hs
  · intro i
    rw [table_clear, table_clear, table_setPte hs]
  · intro w hw
    rw [at_clear hw, at_clear hw, at_setPte hs hu hw]
    by_cases hwu : w = u
    · rw [if_pos hwu, if_neg (by omega), if_pos (by omega)]
    · rw [if_neg hwu]
      by_cases hhi : u + 1 ≤ w ∧ w < hi
      · rw [if_pos hhi, if_pos (by omega)]
      · rw [if_neg hhi, if_neg (by omega)]

/-- The first page behind those of the page table of page `u`. -/
def nextTable (u : Nat) : Nat := (u / 1024 + 1) * 1024

theorem absent_of_table (hn : (d.pde (pdx (u * pgSize))).isNone)
    (h₁ : u ≤ w) (h₂ : w < nextTable u) : d.at w = none := by
  have hdir : pdx (w * pgSize) = pdx (u * pgSize) := by
    apply Fin.ext
    rw [pdx_page, pdx_page]
    simp only [nextTable] at h₂
    omega
  apply at_of_none
  rwa [hdir]

theorem skip_eq (hu : u < nUser) :
    nextPage ((pgAddr ((pdx (u * pgSize)).val + 1) 0 0 + (2 ^ 32 - pgSize)) % 2 ^ 32) =
      nextTable u * pgSize := by
  rw [pdx_page]
  simp only [nUser] at hu
  simp only [nextPage, pgAddr, nextTable, pgSize]
  omega

/-- What a loop that frees the pages from `u` to `hi` leaves. -/
def Frees (k : Kmem) (d : Pgdir) (u hi : Nat) (r : Except Fault (Kmem × Pgdir)) : Prop :=
  r = .ok (k.release (d.mapped u (hi - u)), d.clear u hi)

theorem Frees.done (h : hi ≤ u) : Frees k d u hi (.ok (k, d)) := by
  rw [Frees, Nat.sub_eq_zero_of_le h, clear_of_le h]
  rfl

theorem Frees.skip (huv : u ≤ v) (habsent : ∀ w, u ≤ w → w < v → d.at w = none)
    (h : Frees k d v hi r) : Frees k d u hi r := by
  rw [Frees, mapped_skip huv habsent, ← clear_skip huv habsent]
  exact h

theorem Frees.next (h : d.at u = none) (hrest : Frees k d (u + 1) hi r) : Frees k d u hi r := by
  apply hrest.skip (Nat.le_succ u)
  intro w h₁ h₂
  rwa [Nat.le_antisymm (Nat.lt_succ_iff.1 h₂) h₁]

theorem Frees.page {e : Pte} (he : d.at u = some e) (hu : u < hi) (hhi : hi ≤ nUser)
    (h : Frees (k.push e.ppn) (d.setPte (u * pgSize) none) (u + 1) hi r) : Frees k d u hi r := by
  have hs := isSome_of_at (Option.isSome_iff_exists.2 ⟨e, he⟩)
  have hlt {w : Nat} (hw : w < hi) : w < nPages :=
    Nat.lt_of_lt_of_le hw (Nat.le_trans hhi (by decide))
  have hsame : (d.setPte (u * pgSize) none).mapped (u + 1) (hi - (u + 1)) =
      d.mapped (u + 1) (hi - (u + 1)) := by
    apply mapped_congr
    intro w h₁ h₂
    rw [at_setPte hs (hlt hu) (hlt (by omega)), if_neg (by omega)]
  rw [Frees, hsame, clear_setPte hs (hlt hu) hu] at h
  rw [Frees, mapped_cons_some hu he]
  exact h

/-- The pages there from `u` to `hi` are pages of the allocator. -/
def Ranged (L : Image) (d : Pgdir) (u hi : Nat) : Prop :=
  ∀ w e, u ≤ w → w < hi → d.at w = some e → L.InRange e.ppn

theorem Ranged.later (h : Ranged L d u hi) (huv : u ≤ v) : Ranged L d v hi :=
  fun w e h₁ h₂ => h w e (Nat.le_trans huv h₁) h₂

theorem Ranged.cleared (h : Ranged L d u hi) (hs : (d.pde (pdx (u * pgSize))).isSome)
    (hhi : hi ≤ nUser) : Ranged L (d.setPte (u * pgSize) none) (u + 1) hi := by
  intro w e h₁ h₂ he
  have hlt : w < nPages := Nat.lt_of_lt_of_le h₂ (Nat.le_trans hhi (by decide))
  rw [at_setPte hs (by omega) hlt, if_neg (by omega)] at he
  exact h w e (by omega) h₂ he

/-- `deallocuvm` with a loop that visits every page. -/
def plainLoop (L : Image) : Nat → Kmem → Pgdir → Nat → Nat → Except Fault (Kmem × Pgdir)
  | 0, _, _, _, _ => .error .diverged
  | fuel + 1, k, d, a, oldsz =>
    if oldsz ≤ a then .ok (k, d)
    else
      match d.pte a with
      | none => plainLoop L fuel k d (nextPage a) oldsz
      | some e =>
        if e.ppn = 0 then .error (.panic "kfree")
        else do
          let k ← kfree L k e.ppn
          plainLoop L fuel k (d.setPte a none) (nextPage a) oldsz

section Loops
variable (hsz : oldsz ≤ kernBase) (hfuel : pagesUp oldsz - u < fuel)
  (hrange : Ranged L d u (pagesUp oldsz))
include hsz hfuel hrange

theorem plainLoop_frees : Frees k d u (pagesUp oldsz) (plainLoop L fuel k d (u * pgSize) oldsz) := by
  induction fuel generalizing k d u with
  | zero => omega
  | succ fuel ih =>
    have hup := pagesUp_le hsz
    rw [plainLoop]
    by_cases hu : u < pagesUp oldsz
    · have huser : u < nUser := Nat.lt_of_lt_of_le hu hup
      rw [if_neg (Nat.not_le.2 ((page_lt _ _).2 hu)),
        nextPage_page (Nat.lt_of_le_of_lt huser (by decide))]
      cases he : d.pte (u * pgSize) with
      | none =>
        apply Frees.next he
        exact ih (by omega) (hrange.later (Nat.le_succ u))
      | some e =>
        have hr := hrange u e (Nat.le_refl _) hu he
        apply Frees.page he hu hup
        dsimp only
        rw [if_neg hr.ne_zero, kfree_ok hr, ok_bind]
        apply ih (by omega)
        exact hrange.cleared (isSome_of_at (Option.isSome_iff_exists.2 ⟨e, he⟩)) hup
    · rw [if_pos (Nat.le_of_not_lt fun h => hu ((page_lt _ _).1 h))]
      exact .done (Nat.le_of_not_lt hu)

/-- The loop of `deallocuvm` frees the pages there and clears their entries. -/
theorem deallocLoop_frees :
    Frees k d u (pagesUp oldsz) (deallocLoop L fuel k d (u * pgSize) oldsz) := by
  induction fuel generalizing k d u with
  | zero => omega
  | succ fuel ih =>
    have hup := pagesUp_le hsz
    rw [deallocLoop]
    by_cases hu : u < pagesUp oldsz
    · have huser : u < nUser := Nat.lt_of_lt_of_le hu hup
      rw [if_neg (Nat.not_le.2 ((page_lt _ _).2 hu))]
      by_cases hn : (d.pde (pdx (u * pgSize))).isNone
      · have hlt : u < nextTable u := by
          simp only [nextTable]
          omega
        rw [if_pos hn, skip_eq huser]
        apply Frees.skip (Nat.le_of_lt hlt)
        · exact fun w h₁ h₂ => absent_of_table hn h₁ h₂
        · exact ih (by omega) (hrange.later (Nat.le_of_lt hlt))
      · rw [if_neg hn, nextPage_page (Nat.lt_of_le_of_lt huser (by decide))]
        cases he : d.pte (u * pgSize) with
        | none =>
          apply Frees.next he
          exact ih (by omega) (hrange.later (Nat.le_succ u))
        | some e =>
          have hr := hrange u e (Nat.le_refl _) hu he
          apply Frees.page he hu hup
          dsimp only
          rw [if_neg hr.ne_zero, kfree_ok hr, ok_bind]
          apply ih (by omega)
          exact hrange.cleared (isSome_of_at (Option.isSome_iff_exists.2 ⟨e, he⟩)) hup
    · rw [if_pos (Nat.le_of_not_lt fun h => hu ((page_lt _ _).1 h))]
      exact .done (Nat.le_of_not_lt hu)

end Loops

theorem deallocuvm_eq (h : newsz < oldsz) (hsz : oldsz ≤ kernBase)
    (hrange : Ranged L d (pagesUp newsz) (pagesUp oldsz)) :
    deallocuvm L k d oldsz newsz =
      .ok (k.release (d.mapped (pagesUp newsz) (pagesUp oldsz - pagesUp newsz)),
        d.clear (pagesUp newsz) (pagesUp oldsz), newsz) := by
  have hfuel : pagesUp oldsz - pagesUp newsz < nPages + 1 := by
    have hup := pagesUp_le hsz
    simp only [nUser] at hup
    simp only [nPages]
    omega
  have hloop := deallocLoop_frees (k := k) hsz hfuel hrange
  rw [Frees] at hloop
  rw [deallocuvm, if_neg (Nat.not_le.2 h), pgRoundUp_eq (by omega), hloop, ok_bind]

theorem release_cons (k : Kmem) (p : Nat) (ps : List Nat) :
    k.release (p :: ps) = (k.push p).release ps := rfl

theorem freelist_release (k : Kmem) (ps : List Nat) :
    (k.release ps).freelist = ps.reverse ++ k.freelist := by
  induction ps generalizing k with
  | nil => rfl
  | cons p ps ih =>
    rw [release_cons, ih, List.reverse_cons, List.append_assoc]
    rfl

theorem free_release (k : Kmem) (ps : List Nat) : (k.release ps).free = k.free + ps := by
  rw [Kmem.free, freelist_release, ← Multiset.coe_add, Multiset.coe_reverse, add_comm, Kmem.free]

theorem data_release (h : p ∉ ps) (k : Kmem) : (k.release ps).data p = k.data p := by
  induction ps generalizing k with
  | nil => rfl
  | cons q ps ih =>
    rw [List.mem_cons, not_or] at h
    rw [release_cons, ih h.2]
    exact Function.update_of_ne h.1 _ _

theorem mapped_succ (d : Pgdir) (lo n : Nat) :
    d.mapped lo (n + 1) = d.mapped lo n ++ ((d.at (lo + n)).map Pte.ppn).toList := by
  rw [Pgdir.mapped, List.range'_concat, List.filterMap_append, Nat.one_mul, Pgdir.mapped]
  congr 1

theorem mapped_trim (hlo : lo ≤ u) (hu : u ≤ hi) (h : ∀ w, u ≤ w → w < hi → d.at w = none) :
    d.mapped lo (hi - lo) = d.mapped lo (u - lo) := by
  induction hu with
  | refl => rfl
  | step hu ih =>
    next hi =>
    have hle : lo ≤ hi := Nat.le_trans hlo hu
    rw [Nat.succ_sub hle, mapped_succ, ih fun w h₁ h₂ => h w h₁ (Nat.lt_succ_of_lt h₂),
      Nat.add_sub_cancel' hle, h hi hu (Nat.lt_succ_self hi)]
    exact List.append_nil _

theorem user_clear (h : lo + n ≤ nUser) :
    (d.clear lo (lo + n)).user + (d.mapped lo n : Multiset Nat) = d.user := by
  induction n with
  | zero =>
    rw [Nat.add_zero, clear_of_le (Nat.le_refl _)]
    exact add_zero _
  | succ n ih =>
    have hlt {w : Nat} (hw : w < nUser) : w < nPages := Nat.lt_trans hw (by decide)
    have hn : lo + n < nUser := by omega
    have hsame (w : Nat) (hw : w < nUser) (hne : w ≠ lo + n) :
        (d.clear lo (lo + (n + 1))).at w = (d.clear lo (lo + n)).at w := by
      rw [at_clear (hlt hw), at_clear (hlt hw)]
      by_cases hin : lo ≤ w ∧ w < lo + n
      · rw [if_pos hin, if_pos (by omega)]
      · rw [if_neg hin, if_neg (by omega)]
    have hsum := user_change hn hsame
    have hzero : ofOption (Option.map Pte.ppn none) = 0 := rfl
    rw [at_clear (hlt hn), at_clear (hlt hn), if_neg (by omega), if_pos (by omega), hzero,
      add_zero] at hsum
    rw [← ih (by omega), ← hsum, mapped_succ, ← Multiset.coe_add, ← add_assoc, add_right_comm]
    rfl

end Xv6.Vm
