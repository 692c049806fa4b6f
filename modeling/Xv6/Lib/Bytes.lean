import Mathlib.Data.Nat.Basic
import Mathlib.Tactic.Ring
import Mathlib.Data.List.Basic

namespace Xv6.Lib
set_option autoImplicit true

abbrev Bytes (n : Nat) := Fin n → UInt8

def byteAt (b : Bytes n) (i : Nat) : UInt8 :=
  if h : i < n then b ⟨i, h⟩ else 0

/-- The little-endian number held by `w` bytes at offset `off`. -/
def getLE (b : Bytes n) (off : Nat) : Nat → Nat
  | 0 => 0
  | w + 1 => (byteAt b off).toNat + 256 * getLE b (off + 1) w

/-- Store the low `w` bytes of `v` at offset `off`, in little-endian order. -/
def putLE (b : Bytes n) (off w v : Nat) : Bytes n := fun i =>
  if off ≤ i.val ∧ i.val < off + w then UInt8.ofNat (v / 256 ^ (i.val - off)) else b i

theorem byteAt_putLE_inside (b : Bytes n) (h₁ : off ≤ i) (h₂ : i < off + w) (hi : i < n) :
    byteAt (putLE b off w v) i = UInt8.ofNat (v / 256 ^ (i - off)) := by
  simp only [byteAt, putLE, dif_pos hi, h₁, h₂, and_self, ↓reduceIte]

theorem byteAt_putLE_outside (b : Bytes n) (h : i < off ∨ off + w ≤ i) :
    byteAt (putLE b off w v) i = byteAt b i := by
  have hn : ¬(off ≤ i ∧ i < off + w) := by omega
  simp only [byteAt, putLE, hn, ↓reduceIte]

theorem getLE_congr {b c : Bytes n}
    (h : ∀ i, off ≤ i → i < off + w → byteAt b i = byteAt c i) :
    getLE b off w = getLE c off w := by
  induction w generalizing off with
  | zero => rfl
  | succ w ih =>
    have h₀ := h off (Nat.le_refl _) (by omega)
    have hr : getLE b (off + 1) w = getLE c (off + 1) w := by
      apply ih
      intro i h₁ h₂
      exact h i (by omega) (by omega)
    simp only [getLE, h₀, hr]

theorem getLE_eq_mod (b : Bytes n) (v : Nat)
    (h : ∀ j, j < w → byteAt b (off + j) = UInt8.ofNat (v / 256 ^ j)) :
    getLE b off w = v % 256 ^ w := by
  induction w generalizing off v with
  | zero => simp only [getLE, pow_zero, Nat.mod_one]
  | succ w ih =>
    have h₀ : byteAt b off = UInt8.ofNat v := by
      simpa only [Nat.add_zero, pow_zero, Nat.div_one] using h 0 (by omega)
    have hr : getLE b (off + 1) w = v / 256 % 256 ^ w := by
      apply ih
      intro j hj
      have hj' := h (j + 1) (by omega)
      rw [show off + 1 + j = off + (j + 1) by omega, hj', pow_succ', Nat.div_div_eq_div_mul]
    have hv : (UInt8.ofNat v).toNat = v % 256 := UInt8.toNat_ofNat
    rw [getLE, h₀, hr, hv, pow_succ', Nat.mod_mul]

theorem getLE_putLE_same (b : Bytes n) (hn : off + w ≤ n) (hv : v < 256 ^ w) :
    getLE (putLE b off w v) off w = v := by
  have h : ∀ j, j < w →
      byteAt (putLE b off w v) (off + j) = UInt8.ofNat (v / 256 ^ j) := by
    intro j hj
    rw [byteAt_putLE_inside b (by omega) (by omega) (by omega), Nat.add_sub_cancel_left]
  rw [getLE_eq_mod _ v h, Nat.mod_eq_of_lt hv]

theorem getLE_putLE_disjoint (b : Bytes n) (h : off' + w' ≤ off ∨ off + w ≤ off') :
    getLE (putLE b off w v) off' w' = getLE b off' w' := by
  apply getLE_congr
  intro i h₁ h₂
  exact byteAt_putLE_outside b (by omega)

theorem getLE_lt (b : Bytes n) (off w : Nat) : getLE b off w < 256 ^ w := by
  induction w generalizing off with
  | zero => simp only [getLE, pow_zero, Nat.lt_one_iff]
  | succ w ih =>
    have h₀ : (byteAt b off).toNat < 256 := (byteAt b off).toNat_lt
    have hr := ih (off + 1)
    rw [getLE, pow_succ']
    omega

theorem getLE_zero (n off w : Nat) : getLE (fun _ => 0 : Bytes n) off w = 0 := by
  induction w generalizing off with
  | zero => rfl
  | succ w ih => simp [getLE, ih, byteAt]

def getWord (b : Bytes n) (k : Nat) : Nat := getLE b (4 * k) 4

def putWord (b : Bytes n) (k v : Nat) : Bytes n := putLE b (4 * k) 4 v

theorem getWord_putWord_same (b : Bytes n) (hk : 4 * k + 4 ≤ n) (hv : v < 2 ^ 32) :
    getWord (putWord b k v) k = v :=
  getLE_putLE_same b hk (by omega)

theorem getWord_putWord_ne (b : Bytes n) (h : k' ≠ k) :
    getWord (putWord b k v) k' = getWord b k' :=
  getLE_putLE_disjoint b (by omega)

theorem getWord_lt (b : Bytes n) (k : Nat) : getWord b k < 2 ^ 32 :=
  getLE_lt b (4 * k) 4

/-- Store consecutive words from the `k`-th on. -/
def putWords (b : Bytes n) (k : Nat) : List Nat → Bytes n
  | [] => b
  | v :: vs => putWords (putWord b k v) (k + 1) vs

theorem getLE_putWords_disjoint (b : Bytes n) (vs : List Nat)
    (h : off + w ≤ 4 * k ∨ 4 * (k + vs.length) ≤ off) :
    getLE (putWords b k vs) off w = getLE b off w := by
  induction vs generalizing b k with
  | nil => rfl
  | cons v vs ih =>
    rw [List.length_cons] at h
    rw [putWords, ih _ (by omega), putWord, getLE_putLE_disjoint b (by omega)]

theorem getWord_putWords_before (b : Bytes n) (vs : List Nat) (h : k' < k) :
    getWord (putWords b k vs) k' = getWord b k' :=
  getLE_putWords_disjoint b vs (by omega)

theorem getWord_putWords (b : Bytes n) (vs : List Nat) (hn : 4 * (k + vs.length) ≤ n)
    (hv : ∀ v ∈ vs, v < 2 ^ 32) {i : Nat} (hi : i < vs.length) :
    getWord (putWords b k vs) (k + i) = vs[i] := by
  induction vs generalizing b k i with
  | nil => simp at hi
  | cons v vs ih =>
    rw [List.length_cons] at hn hi
    rw [putWords]
    cases i with
    | zero =>
      rw [Nat.add_zero k, getWord_putWords_before _ _ (by omega),
        getWord_putWord_same b (by omega) (hv v List.mem_cons_self), List.getElem_cons_zero]
    | succ i =>
      rw [show k + (i + 1) = k + 1 + i by omega, List.getElem_cons_succ]
      exact ih _ (by omega) (fun v hv' => hv v (List.mem_cons_of_mem _ hv')) (by omega)

end Xv6.Lib
