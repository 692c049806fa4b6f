import Mathlib.Data.List.Basic
import Mathlib.Data.UInt
import Mathlib.Logic.Function.Basic

namespace Xv6.Lib
set_option autoImplicit true

/-- How far the wrapping counter `w` is ahead of `r`. -/
def ahead (r w : UInt32) : Nat :=
  (w - r).toNat

theorem ahead_eq (r w : UInt32) : ahead r w = (2 ^ 32 - r.toNat + w.toNat) % 2 ^ 32 :=
  UInt32.toNat_sub w r

@[simp] theorem ahead_self (r : UInt32) : ahead r r = 0 := by
  simp [ahead]

theorem add_ahead (r w : UInt32) : r + UInt32.ofNat (ahead r w) = w := by
  simp [ahead]

theorem ahead_add (r : UInt32) (h : n < 2 ^ 32) : ahead r (r + UInt32.ofNat n) = n := by
  simpa [ahead] using h

theorem ahead_eq_zero : ahead r w = 0 ↔ w = r := by
  constructor
  · intro h
    have hw := add_ahead r w
    rw [h] at hw
    simpa using hw.symm
  · rintro rfl
    exact ahead_self w

theorem ahead_succ (h : ahead r w + 1 < 2 ^ 32) : ahead r (w + 1) = ahead r w + 1 := by
  simp only [ahead_eq, UInt32.toNat_add, UInt32.toNat_one] at h ⊢
  omega

theorem ahead_pred (h : 0 < ahead r w) : ahead r (w - 1) = ahead r w - 1 := by
  have hr := r.toNat_lt
  have hw := w.toNat_lt
  simp only [ahead_eq, UInt32.toNat_sub, UInt32.toNat_one] at h ⊢
  omega

theorem ahead_succ_left (h : 0 < ahead r w) : ahead (r + 1) w = ahead r w - 1 := by
  have hr := r.toNat_lt
  have hw := w.toNat_lt
  simp only [ahead_eq, UInt32.toNat_add, UInt32.toNat_one] at h ⊢
  omega

theorem ahead_trans (h : ahead r w + ahead w e < 2 ^ 32) : ahead r e = ahead r w + ahead w e := by
  have hr := r.toNat_lt
  have hw := w.toNat_lt
  have he := e.toNat_lt
  simp only [ahead_eq] at h ⊢
  omega

theorem ahead_between (h : ahead r w ≤ ahead r e) : ahead r e = ahead r w + ahead w e := by
  have hr := r.toNat_lt
  have hw := w.toNat_lt
  have he := e.toNat_lt
  simp only [ahead_eq] at h ⊢
  omega

theorem eq_add_iff (r w : UInt32) (hn : n < 2 ^ 32) :
    w = r + UInt32.ofNat n ↔ ahead r w = n := by
  constructor
  · rintro rfl
    exact ahead_add r hn
  · rintro rfl
    exact (add_ahead r w).symm

/-- The place of count `i` in a ring of `N` elements. -/
def slot (N : Nat) [NeZero N] (i : UInt32) : Fin N :=
  Fin.ofNat N i.toNat

/-- The `n` elements of a ring from count `r` on. -/
def window [NeZero N] (buf : Fin N → α) (r : UInt32) : Nat → List α
  | 0 => []
  | n + 1 => buf (slot N r) :: window buf (r + 1) n

section Ring
variable {N : Nat} [NeZero N]

@[simp] theorem window_length (buf : Fin N → α) (r : UInt32) (n : Nat) :
    (window buf r n).length = n := by
  induction n generalizing r with
  | zero => rfl
  | succ n ih => rw [window, List.length_cons, ih]

theorem window_append (buf : Fin N → α) (r : UInt32) (m n : Nat) :
    window buf r (m + n) = window buf r m ++ window buf (r + UInt32.ofNat m) n := by
  induction m generalizing r with
  | zero => simp [window]
  | succ m ih =>
    have hr : r + 1 + UInt32.ofNat m = r + UInt32.ofNat (m + 1) := by
      rw [UInt32.add_assoc, UInt32.add_comm 1]
      simp
    rw [Nat.succ_add, window, ih, window, List.cons_append, hr]

theorem getElem?_window (buf : Fin N → α) (r : UInt32) (hj : j < n) :
    (window buf r n)[j]? = some (buf (slot N (r + UInt32.ofNat j))) := by
  obtain ⟨m, rfl⟩ := Nat.exists_eq_add_of_lt hj
  rw [Nat.add_assoc, window_append, List.getElem?_append_right (by rw [window_length]),
    window_length, Nat.sub_self, window]
  rfl

theorem slot_add (hN : N ∣ 2 ^ 32) (r : UInt32) (i : Nat) :
    slot N (r + UInt32.ofNat i) = Fin.ofNat N (r.toNat + i) := by
  apply Fin.ext
  simp only [slot, Fin.ofNat, UInt32.toNat_add, UInt32.toNat_ofNat']
  rw [Nat.mod_mod_of_dvd _ hN, Nat.add_mod, Nat.mod_mod_of_dvd _ hN, ← Nat.add_mod]

theorem slot_ne (hN : N ∣ 2 ^ 32) (r : UInt32) (hij : i < j) (hj : j < N) :
    slot N (r + UInt32.ofNat i) ≠ slot N (r + UInt32.ofNat j) := by
  rw [slot_add hN, slot_add hN]
  intro h
  have hm : (r.toNat + i) % N = (r.toNat + j) % N := congrArg Fin.val h
  have hd : N ∣ j - i := by
    have := (Nat.modEq_iff_dvd' (Nat.add_le_add_left hij.le _)).1 hm
    rwa [Nat.add_sub_add_left] at this
  have := Nat.le_of_dvd (Nat.sub_pos_of_lt hij) hd
  omega

theorem window_update (hN : N ∣ 2 ^ 32) (buf : Fin N → α) (r : UInt32) (hn : n ≤ j) (hj : j < N)
    (x : α) :
    window (Function.update buf (slot N (r + UInt32.ofNat j)) x) r n = window buf r n := by
  induction n with
  | zero => rfl
  | succ n ih =>
    rw [window_append _ r n 1, window_append _ r n 1, ih (by omega)]
    simp only [window]
    rw [Function.update_of_ne (slot_ne hN r (by omega) hj)]

theorem window_push (hN : N ∣ 2 ^ 32) (buf : Fin N → α) (r : UInt32) (hn : n < N) (x : α) :
    window (Function.update buf (slot N (r + UInt32.ofNat n)) x) r (n + 1) =
      window buf r n ++ [x] := by
  rw [window_append, window_update hN buf r (Nat.le_refl n) hn]
  simp [window]

end Ring

end Xv6.Lib
