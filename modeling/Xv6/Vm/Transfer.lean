import Xv6.Vm.Space

namespace Xv6.Vm
open Lib
set_option autoImplicit true

variable {L : Image} {k₀ k k' : Kmem} {d : Pgdir} {sz v j n va off fuel : Nat} {f : Nat → UInt8}
  {u : Nat → Bool} {ip : File} {buf : List UInt8}

theorem length_readi_le (ip : File) (off n : Nat) : (readi ip off n).1.length ≤ n := by
  rw [readi]
  split
  · exact Nat.zero_le _
  · exact List.length_take_le _ _

theorem readi_full (h : (readi ip off n).2 = n) :
    off + n ≤ ip.bytes.length ∧ (readi ip off n).1 = (ip.bytes.drop off).take n := by
  rw [readi] at h ⊢
  split at h
  · next hbad =>
    dsimp only at h
    omega
  · next hok =>
    rw [if_neg hok]
    dsimp only at h ⊢
    rw [List.length_take, List.length_drop] at h
    refine ⟨?_, rfl⟩
    omega

theorem readi_ok (h : off + n ≤ ip.bytes.length) : (readi ip off n).2 = n := by
  have hsize := ip.size_lt
  rw [readi, if_neg (by omega)]
  show ((((ip.bytes.drop off).take n).length : Nat) : Int) = n
  rw [List.length_take, List.length_drop]
  omega

/-- The bytes loaded when the loop of `loaduvm` is at page `j`. -/
def loaded (ip : File) (off n j : Nat) : List UInt8 := (ip.bytes.drop off).take (min n (j * pgSize))

theorem loaded_succ (ip : File) (off : Nat) (hj : j * pgSize < n) :
    loaded ip off n j ++ (ip.bytes.drop (off + j * pgSize)).take (min (n - j * pgSize) pgSize) =
      loaded ip off n (j + 1) := by
  have hnext : min n ((j + 1) * pgSize) = j * pgSize + min (n - j * pgSize) pgSize := by
    rw [Nat.succ_mul]
    generalize j * pgSize = i at hj ⊢
    omega
  have hmin : min n (j * pgSize) = j * pgSize := Nat.min_eq_right (Nat.le_of_lt hj)
  rw [loaded, loaded, hmin, hnext, List.take_add, List.drop_drop]

theorem loadLoop_spec (ip : File) (hoff : off < 2 ^ 32) (hin : v * pgSize + n ≤ sz)
    (h : Space L k₀ k d sz (overlay f (v * pgSize) (loaded ip off n j)) u)
    (hlen : (loaded ip off n j).length = min n (j * pgSize)) (hfuel : pagesUp n - j < fuel) :
    ∃ k' r, loadLoop ip d (v * pgSize) off n fuel k (j * pgSize) = .ok (k', r) ∧
      (r = 0 ∧ ((ip.bytes.drop off).take n).length = n ∧
          Space L k₀ k' d sz (overlay f (v * pgSize) ((ip.bytes.drop off).take n)) u ∨
        r = -1 ∧ ip.bytes.length < off + n ∧ Held L k₀ k' d) := by
  induction fuel generalizing k j with
  | zero => omega
  | succ fuel ih =>
    rw [loadLoop]
    by_cases hj : j * pgSize < n
    · have hsz := h.lt
      have hw : v + j < pagesUp sz := by
        rw [← page_lt, Nat.add_mul]
        exact Nat.lt_of_lt_of_le (Nat.add_lt_add_left hj _) hin
      have haddr : (v * pgSize + j * pgSize) % 2 ^ 32 = (v + j) * pgSize := by
        rw [← Nat.add_mul, Nat.mod_eq_of_lt]
        have hlt := (page_lt _ _).2 hw
        exact Nat.lt_trans hlt (Nat.lt_trans hsz (by decide))
      have hfile := ip.size_lt
      have hmin : min n (j * pgSize) = j * pgSize := Nat.min_eq_right (Nat.le_of_lt hj)
      rw [hmin] at hlen
      have hpos : (off + j * pgSize) % 2 ^ 32 = off + j * pgSize := by
        apply Nat.mod_eq_of_lt
        rw [loaded, hmin, List.length_take, List.length_drop] at hlen
        simp only [pgSize] at hlen ⊢
        omega
      have hsize : (if n - j * pgSize < pgSize then n - j * pgSize else pgSize) =
          min (n - j * pgSize) pgSize := by
        split <;> omega
      obtain ⟨p, hat, hs, -⟩ := h.entry hw
      have hpte : d.pte ((v + j) * pgSize) = some ⟨p, ⟨true, u (v + j)⟩⟩ := hat
      dsimp only
      rw [if_neg (Nat.not_le.2 hj), haddr, hpos, hsize, if_neg (by
        rw [Option.isNone_iff_eq_none]
        exact Option.isSome_iff_ne_none.1 hs), hpte]
      have hbound := length_readi_le ip (off + j * pgSize) (min (n - j * pgSize) pgSize)
      have hwrite := h.write _ (o := 0) hw hat (by
        rw [Nat.zero_add]
        exact Nat.le_trans hbound (Nat.min_le_right _ _))
      by_cases hr : (readi ip (off + j * pgSize) (min (n - j * pgSize) pgSize)).2 =
          (min (n - j * pgSize) pgSize : Nat)
      · obtain ⟨hfull, hbs⟩ := readi_full hr
        rw [if_neg (not_not.2 hr), nextPage_page (by
          have hlt := h.user_lt hw
          simp only [nUser] at hlt
          simp only [nPages]
          omega)]
        apply ih
        · rw [Nat.add_zero, Nat.add_mul] at hwrite
          rw [← loaded_succ ip off hj, ← overlay_append, hlen, ← hbs]
          exact hwrite
        · rw [← loaded_succ ip off hj, List.length_append, hlen, List.length_take, List.length_drop,
            Nat.succ_mul]
          simp only [pgSize] at hj hfull ⊢
          omega
        · have hlt := (page_lt _ _).1 hj
          omega
      · rw [if_pos hr]
        refine ⟨_, -1, rfl, .inr ⟨rfl, ?_, hwrite.toHeld⟩⟩
        by_contra hle
        apply hr
        apply readi_ok
        simp only [pgSize] at hj ⊢
        omega
    · rw [if_pos (Nat.le_of_not_lt hj)]
      rw [loaded, Nat.min_eq_left (Nat.le_of_not_lt hj)] at h hlen
      exact ⟨k, 0, rfl, .inl ⟨rfl, hlen, h⟩⟩

/-- `loaduvm` of pages there copies the bytes of the file, or fails. -/
theorem Space.loaduvm (h : Space L k₀ k d sz f u) (ip : File) (hoff : off < 2 ^ 32) (hin : v * pgSize + n ≤ sz) :
    ∃ k' r, loaduvm k d (v * pgSize) ip off n = .ok (k', r) ∧
      (r = 0 ∧ ((ip.bytes.drop off).take n).length = n ∧
          Space L k₀ k' d sz (overlay f (v * pgSize) ((ip.bytes.drop off).take n)) u ∨
        r = -1 ∧ ip.bytes.length < off + n ∧ Held L k₀ k' d) := by
  have hloaded : loaded ip off n 0 = [] := by
    rw [loaded, Nat.zero_mul, Nat.min_zero, List.take_zero]
  have hup : pagesUp n ≤ nUser := pagesUp_le (Nat.le_trans (Nat.le_trans (Nat.le_add_left _ _) hin)
    (Nat.le_of_lt h.lt))
  rw [Vm.loaduvm, if_neg (by rw [Nat.mul_mod_left]; exact not_not.2 rfl)]
  have hloop := loadLoop_spec ip (j := 0) (f := f) hoff hin (by
    rw [hloaded, overlay_nil]
    exact h) (by rw [hloaded, Nat.zero_mul, Nat.min_zero]; rfl)
    (Nat.lt_succ_of_le (Nat.le_trans (Nat.sub_le _ _) (Nat.le_trans hup (by decide : nUser ≤ nPages))))
  rwa [Nat.zero_mul] at hloop

theorem uva2ka_page (hs : (d.pde (pdx (v * pgSize))).isSome) (hat : d.at v = some e) :
    uva2ka d (v * pgSize) = .ok (if e.perm.u then some e.ppn else none) := by
  have hpte : d.pte (v * pgSize) = some e := hat
  rw [uva2ka, if_neg (by
    rw [Option.isNone_iff_eq_none]
    exact Option.isSome_iff_ne_none.1 hs), hpte]

theorem outLoop_spec (h : Space L k₀ k d sz f u) (hin : va + buf.length ≤ pagesUp sz * pgSize)
    (hfuel : buf.length < fuel) :
    ∃ k' r, outLoop d fuel k va buf = .ok (k', r) ∧
      (r = 0 ∧ (∀ a, va ≤ a → a < va + buf.length → u (a / pgSize) = true) ∧
          Space L k₀ k' d sz (overlay f va buf) u ∨
        r = -1 ∧ (∃ a, va ≤ a ∧ a < va + buf.length ∧ u (a / pgSize) = false) ∧ Held L k₀ k' d) := by
  induction fuel generalizing k f va buf with
  | zero => omega
  | succ fuel ih =>
    rw [outLoop]
    by_cases hbuf : buf.length = 0
    · rw [if_pos hbuf]
      refine ⟨k, 0, rfl, .inl ⟨rfl, fun a h₁ h₂ => by omega, ?_⟩⟩
      rw [List.length_eq_zero_iff.1 hbuf, overlay_nil]
      exact h
    · have hw : va / pgSize < pagesUp sz := by
        simp only [pgSize] at hin ⊢
        omega
      obtain ⟨p, hat, hs, -⟩ := h.entry hw
      have hdown : pgRoundDown va = va / pgSize * pgSize := rfl
      have hrest : va / pgSize * pgSize + va % pgSize = va := Nat.div_add_mod' va pgSize
      have hmod : va % pgSize < pgSize := Nat.mod_lt _ (by decide)
      dsimp only
      rw [if_neg hbuf, hdown, uva2ka_page hs hat, ok_bind]
      by_cases hu : u (va / pgSize) = true
      · have hoff : va - va / pgSize * pgSize = va % pgSize := by omega
        rw [hu]
        dsimp only
        rw [if_pos rfl, hoff, nextPage_page (by
          have hlt := h.user_lt hw
          simp only [nUser] at hlt
          simp only [nPages]
          omega)]
        dsimp only
        generalize hn : min (pgSize - va % pgSize) buf.length = n
        have htake : (buf.take n).length = n := by
          rw [List.length_take]
          omega
        have hwrite := h.write (buf.take n) (o := va % pgSize) hw hat (by
          rw [htake]
          omega)
        rw [hrest] at hwrite
        have hdrop : (buf.drop n).length = buf.length - n := List.length_drop
        obtain ⟨k', r, ho, hr⟩ := @ih _ ((va / pgSize + 1) * pgSize) _ (buf.drop n) hwrite (by
          rw [hdrop]
          simp only [pgSize] at hn hin hw ⊢
          omega) (by
          rw [hdrop]
          omega)
        rw [hdrop, Nat.succ_mul] at hr
        refine ⟨k', r, ho, ?_⟩
        rcases hr with ⟨hr, hall, hspace⟩ | ⟨hr, ⟨a, h₁, h₂, ha⟩, hheld⟩
        · refine .inl ⟨hr, ?_, ?_⟩
          · intro a h₁ h₂
            by_cases hnext : va / pgSize * pgSize + pgSize ≤ a
            · exact hall a hnext (by omega)
            · have hsame : a / pgSize = va / pgSize := by
                simp only [pgSize] at hrest hnext ⊢
                omega
              rw [hsame, hu]
          · by_cases hlast : n = buf.length
            · rw [hlast, List.drop_length, List.take_length, overlay_nil] at hspace
              exact hspace
            · have hva : va / pgSize * pgSize + pgSize = va + (buf.take n).length := by
                rw [htake]
                omega
              rwa [hva, overlay_append, List.take_append_drop] at hspace
        · exact .inr ⟨hr, ⟨a, by omega, by omega, ha⟩, hheld⟩
      · rw [Bool.not_eq_true] at hu
        rw [hu]
        exact ⟨k, -1, rfl, .inr ⟨rfl, ⟨va, Nat.le_refl _, by omega, hu⟩, h.toHeld⟩⟩

/-- `copyout` to pages there copies the bytes, or meets a page not for users. -/
theorem Space.copyout (h : Space L k₀ k d sz f u) (hin : va + buf.length ≤ pagesUp sz * pgSize) :
    ∃ k' r, copyout k d va buf = .ok (k', r) ∧
      (r = 0 ∧ (∀ a, va ≤ a → a < va + buf.length → u (a / pgSize) = true) ∧
          Space L k₀ k' d sz (overlay f va buf) u ∨
        r = -1 ∧ (∃ a, va ≤ a ∧ a < va + buf.length ∧ u (a / pgSize) = false) ∧ Held L k₀ k' d) :=
  outLoop_spec h hin (Nat.lt_succ_self _)

theorem Pgdir.Kernel.copyout (h : d.Kernel) (hw : KernelPage (va / pgSize)) (hbuf : buf.length ≠ 0) :
    copyout k d va buf = .ok (k, -1) := by
  obtain ⟨e, hat, hu⟩ := h _ hw
  have hsome : (d.at (va / pgSize)).isSome := by
    rw [hat]
    rfl
  have hdown : pgRoundDown va = va / pgSize * pgSize := rfl
  rw [Vm.copyout, outLoop, if_neg hbuf]
  dsimp only
  rw [hdown, uva2ka_page (isSome_of_at hsome) hat, ok_bind, hu]
  rfl

end Xv6.Vm
