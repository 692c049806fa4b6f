import Xv6.Lib.Bytes
import Mathlib.Data.Nat.Bitwise

namespace Xv6.Lib
set_option autoImplicit true

def mask (k : Nat) : UInt8 := 1 <<< UInt8.ofNat k

def bitAt (b : Bytes n) (i : Nat) : Bool := (byteAt b (i / 8) &&& mask (i % 8)) != 0

def setBit (b : Bytes n) (i : Nat) : Bytes n := fun k =>
  if k.val = i / 8 then b k ||| mask (i % 8) else b k

def clearBit (b : Bytes n) (i : Nat) : Bytes n := fun k =>
  if k.val = i / 8 then b k &&& ~~~mask (i % 8) else b k

theorem toBitVec_mask (hk : k < 8) : (mask k).toBitVec = BitVec.twoPow 8 k := by
  have h : ∀ k : Fin 8, (mask k.val).toBitVec = BitVec.twoPow 8 k.val := by decide
  exact h ⟨k, hk⟩

theorem and_mask_ne_zero (x : UInt8) (hk : k < 8) :
    ((x &&& mask k) != 0) = x.toBitVec.getLsbD k := by
  have hne : mask k ≠ 0 := by
    have h : ∀ k : Fin 8, mask k.val ≠ 0 := by decide
    exact h ⟨k, hk⟩
  have hand : (x &&& mask k) = if x.toBitVec.getLsbD k then mask k else 0 := by
    rw [← UInt8.toBitVec_inj, UInt8.toBitVec_and, toBitVec_mask hk, BitVec.and_twoPow]
    split
    · rw [toBitVec_mask hk]
    · rfl
  rw [hand]
  cases x.toBitVec.getLsbD k with
  | false => rfl
  | true => simpa using hne

theorem getLsbD_or_mask (x : UInt8) (hk : k < 8) (hj : j < 8) :
    (x ||| mask k).toBitVec.getLsbD j = (x.toBitVec.getLsbD j || decide (j = k)) := by
  rw [UInt8.toBitVec_or, BitVec.getLsbD_or, toBitVec_mask hk, BitVec.getLsbD_twoPow]
  simp [hk, hj, eq_comm]

theorem getLsbD_and_not_mask (x : UInt8) (hk : k < 8) (hj : j < 8) :
    (x &&& ~~~mask k).toBitVec.getLsbD j = (x.toBitVec.getLsbD j && !decide (j = k)) := by
  rw [UInt8.toBitVec_and, UInt8.toBitVec_not, BitVec.getLsbD_and, BitVec.getLsbD_not,
    toBitVec_mask hk, BitVec.getLsbD_twoPow]
  simp [hk, hj, eq_comm]

theorem bitAt_eq_getLsbD (b : Bytes n) (i : Nat) :
    bitAt b i = (byteAt b (i / 8)).toBitVec.getLsbD (i % 8) :=
  and_mask_ne_zero _ (Nat.mod_lt _ (by decide))

theorem byteAt_setBit (b : Bytes n) (h : i / 8 < n) (j : Nat) : byteAt (setBit b i) j =
    if j = i / 8 then byteAt b j ||| mask (i % 8) else byteAt b j := by
  simp only [byteAt, setBit]
  split
  · rfl
  · next hj =>
    rw [if_neg]
    rintro rfl
    exact hj h

theorem byteAt_clearBit (b : Bytes n) (h : i / 8 < n) (j : Nat) : byteAt (clearBit b i) j =
    if j = i / 8 then byteAt b j &&& ~~~mask (i % 8) else byteAt b j := by
  simp only [byteAt, clearBit]
  split
  · rfl
  · next hj =>
    rw [if_neg]
    rintro rfl
    exact hj h

theorem bitAt_setBit (b : Bytes n) (h : i / 8 < n) (j : Nat) :
    bitAt (setBit b i) j = (bitAt b j || decide (j = i)) := by
  have hi := Nat.mod_lt i (by decide : 8 > 0)
  have hj := Nat.mod_lt j (by decide : 8 > 0)
  simp only [bitAt_eq_getLsbD, byteAt_setBit b h]
  split
  · next hd =>
    rw [getLsbD_or_mask _ hi hj]
    congr 1
    simp only [decide_eq_decide]
    omega
  · next hd =>
    have hne : j ≠ i := by
      rintro rfl
      exact hd rfl
    simp [hne]

theorem bitAt_clearBit (b : Bytes n) (h : i / 8 < n) (j : Nat) :
    bitAt (clearBit b i) j = (bitAt b j && !decide (j = i)) := by
  have hi := Nat.mod_lt i (by decide : 8 > 0)
  have hj := Nat.mod_lt j (by decide : 8 > 0)
  simp only [bitAt_eq_getLsbD, byteAt_clearBit b h]
  split
  · next hd =>
    rw [getLsbD_and_not_mask _ hi hj]
    congr 2
    simp only [decide_eq_decide]
    omega
  · next hd =>
    have hne : j ≠ i := by
      rintro rfl
      exact hd rfl
    simp [hne]

end Xv6.Lib
