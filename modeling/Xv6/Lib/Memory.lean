import Mathlib.Data.List.GetD
import Mathlib.Tactic.Ring

namespace Xv6.Lib
set_option autoImplicit true

/-- The number with the given bytes, the lowest one first. -/
def leNat : List UInt8 → Nat
  | [] => 0
  | b :: bs => b.toNat + 256 * leNat bs

/-- The low `w` bytes of a number, the lowest one first. -/
def leBytes : Nat → Nat → List UInt8
  | 0, _ => []
  | w + 1, v => UInt8.ofNat v :: leBytes w (v / 256)

theorem length_leBytes (w v : Nat) : (leBytes w v).length = w := by
  induction w generalizing v with
  | zero => rfl
  | succ w ih => rw [leBytes, List.length_cons, ih]

theorem leNat_leBytes (w v : Nat) : leNat (leBytes w v) = v % 256 ^ w := by
  induction w generalizing v with
  | zero => rw [leBytes, leNat, pow_zero, Nat.mod_one]
  | succ w ih =>
    have hv : (UInt8.ofNat v).toNat = v % 256 := UInt8.toNat_ofNat
    rw [leBytes, leNat, ih, hv, pow_succ', Nat.mod_mul]

theorem leNat_lt (bs : List UInt8) : leNat bs < 256 ^ bs.length := by
  induction bs with
  | nil => exact Nat.one_pos
  | cons b bs ih =>
    have hb := b.toNat_lt
    rw [leNat, List.length_cons, pow_succ']
    omega

variable {f g : Nat → UInt8} {a b n : Nat} {bs cs : List UInt8}

/-- A memory after the bytes `bs` are written at address `a`. -/
def overlay (f : Nat → UInt8) (a : Nat) (bs : List UInt8) : Nat → UInt8 := fun x =>
  if a ≤ x ∧ x < a + bs.length then bs.getD (x - a) 0 else f x

def Stored (f : Nat → UInt8) (a : Nat) (bs : List UInt8) : Prop :=
  ∀ i b, bs[i]? = some b → f (a + i) = b

theorem overlay_nil (f : Nat → UInt8) (a : Nat) : overlay f a [] = f := by
  funext x
  rw [overlay, if_neg (by rw [List.length_nil]; omega)]

theorem overlay_of_lt (h : b < a) : overlay f a bs b = f b := if_neg (by omega)

theorem overlay_of_le (h : a + bs.length ≤ b) : overlay f a bs b = f b := if_neg (by omega)

theorem overlay_inside (h₁ : a ≤ b) (h₂ : b < a + bs.length) : overlay f a bs b = bs.getD (b - a) 0 :=
  if_pos ⟨h₁, h₂⟩

theorem overlay_append : overlay (overlay f a bs) (a + bs.length) cs = overlay f a (bs ++ cs) := by
  funext x
  by_cases h₁ : x < a + bs.length
  · rw [overlay_of_lt h₁]
    by_cases h₂ : a ≤ x
    · rw [overlay_inside h₂ h₁, overlay_inside h₂ (by rw [List.length_append]; omega),
        List.getD_append _ _ _ _ (by omega)]
    · rw [overlay_of_lt (by omega), overlay_of_lt (by omega)]
  · by_cases h₂ : x < a + bs.length + cs.length
    · rw [overlay_inside (by omega) h₂, overlay_inside (by omega) (by rw [List.length_append]; omega),
        List.getD_append_right _ _ _ _ (by omega), Nat.sub_sub]
    · rw [overlay_of_le (by omega), overlay_of_le (by omega),
        overlay_of_le (by rw [List.length_append]; omega)]

theorem overlay_shift (h : ∀ o, o < n → f o = g (b + o)) :
    ∀ o, o < n → overlay f a bs o = overlay g (b + a) bs (b + o) := by
  intro o ho
  by_cases hin : a ≤ o ∧ o < a + bs.length
  · rw [overlay_inside hin.1 hin.2, overlay_inside (by omega) (by omega)]
    congr 1
    omega
  · rw [overlay, if_neg hin, overlay, if_neg (by omega), h o ho]

theorem stored_overlay (f : Nat → UInt8) (a : Nat) (bs : List UInt8) : Stored (overlay f a bs) a bs := by
  intro i b hb
  obtain ⟨hi, rfl⟩ := List.getElem?_eq_some_iff.1 hb
  rw [overlay_inside (Nat.le_add_right _ _) (Nat.add_lt_add_left hi _), Nat.add_sub_cancel_left,
    List.getD_eq_getElem _ _ hi]

theorem Stored.overlay (h : Stored f a bs) (hd : a + bs.length ≤ b ∨ b + cs.length ≤ a) :
    Stored (overlay f b cs) a bs := by
  intro i x hx
  obtain ⟨hi, -⟩ := List.getElem?_eq_some_iff.1 hx
  rw [← h i x hx]
  rcases hd with hd | hd
  · exact overlay_of_lt (by omega)
  · exact overlay_of_le (by omega)

theorem Stored.left (h : Stored f a (bs ++ cs)) : Stored f a bs := by
  intro i x hx
  apply h
  obtain ⟨hi, -⟩ := List.getElem?_eq_some_iff.1 hx
  rw [List.getElem?_append_left hi, hx]

theorem Stored.right (h : Stored f a (bs ++ cs)) : Stored f (a + bs.length) cs := by
  intro i x hx
  rw [Nat.add_assoc]
  apply h
  rw [List.getElem?_append_right (Nat.le_add_right _ _), Nat.add_sub_cancel_left, hx]

theorem Stored.tail {x : UInt8} (h : Stored f a (x :: bs)) : Stored f (a + 1) bs :=
  @Stored.right f a [x] bs h

theorem Stored.word {vs : List Nat} (h : Stored f a (vs.flatMap (leBytes w))) (hv : vs[i]? = some v) :
    Stored f (a + i * w) (leBytes w v) := by
  induction vs generalizing a i with
  | nil => cases hv
  | cons x vs ih =>
    rw [List.flatMap_cons] at h
    cases i with
    | zero =>
      obtain rfl := Option.some.inj hv
      rw [Nat.zero_mul]
      exact h.left
    | succ i =>
      have htail := h.right
      rw [length_leBytes] at htail
      rw [Nat.succ_mul, Nat.add_comm (i * w), ← Nat.add_assoc]
      exact ih htail hv

end Xv6.Lib
