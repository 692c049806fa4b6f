import Xv6.Sys.Calls
import Xv6.Lib.Tracks

namespace Xv6.Sys
open Lib Fs
set_option autoImplicit true

variable {f : Nat → Inode} {ip : Inode} {dents : List Dirent} {strict : Bool}
variable {ps : List Nat} {d i j k l m n p : Nat} {x y : Nat × Nat}

theorem toInt_add_one {x : Int16} (h : x ≠ 32767) : (x + 1).toInt = x.toInt + 1 := by
  have h₁ := x.toInt_lt
  have h₂ := x.le_toInt
  have h₃ : x.toInt ≠ 32767 := by
    intro he
    apply h
    rw [← Int16.toInt_inj, he]
    rfl
  rw [Int16.toInt_add, Int16.toInt_one, Int.bmod_eq_of_le]
  · omega
  · omega

theorem pos_iff_toInt {x : Int16} : 0 < x ↔ 0 < x.toInt := by
  rw [Int16.lt_iff_toInt_lt, Int16.toInt_zero]

theorem eq_zero_iff_toInt {x : Int16} : x = 0 ↔ x.toInt = 0 := by
  rw [← Int16.toInt_inj, Int16.toInt_zero]

theorem toInt_sub_one {x : Int16} (h : 0 < x) : (x - 1).toInt = x.toInt - 1 := by
  have h₁ := x.toInt_lt
  have h₂ := pos_iff_toInt.1 h
  rw [Int16.toInt_sub, Int16.toInt_one, Int.bmod_eq_of_le]
  · omega
  · omega

def ent (f : Nat → Inode) (d k : Nat) : Nat := (entry (f d).dents k).inum

def Linked (f : Nat → Inode) (d : Nat) : Prop := (f d).type = tDir ∧ 0 < (f d).nlink

/-- The entries that hold a link: not ".", and ".." only in a linked directory. -/
def namedAt (ip : Inode) (k : Nat) : Nat :=
  if ip.type = tDir ∧ (2 ≤ k ∨ k = 1 ∧ 0 < ip.nlink) then (entry ip.dents k).inum else 0

/-- The inode that an entry links, if any. -/
def named (f : Nat → Inode) (x : Nat × Nat) : Nat := namedAt (f x.1) x.2

/-- The entries "." and ".." come first, and only there. -/
structure Dots (d : Nat) (dents : List Dirent) : Prop where
  self : (entry dents 0).inum = d
  dot : key (entry dents 0).name = [46]
  up : (entry dents 1).inum ≠ 0
  dotdot : key (entry dents 1).name = [46, 46]
  rest : ∀ k, 2 ≤ k → (entry dents k).inum ≠ 0 →
    key (entry dents k).name ≠ [46] ∧ key (entry dents k).name ≠ [46, 46]

/-- `m` entries link the inode and `p` links get one; unless `strict`, files may have lost some. -/
structure LinkCount (strict : Bool) (m p : Nat) (ip : Inode) : Prop where
  free : ip.type = 0 → m = 0 ∧ p = 0
  le : ip.type ≠ 0 → ((m + p : Nat) : Int) ≤ ip.nlink.toInt
  exact : ip.type ≠ 0 → ip.type = tDir ∨ strict = true → ((m + p : Nat) : Int) = ip.nlink.toInt

/-- The linked directories form a tree, and counts tell the entries; those in `ps` have a link
without one. -/
structure Tree (strict : Bool) (ps : List Nat) (n : Nat) (f : Nat → Inode) : Prop where
  size : n ≤ 2 ^ 16
  inum : ∀ i, (f i).type ≠ 0 → 0 < i ∧ i < n
  dots : ∀ d, (f d).type = tDir → Dots d (f d).dents
  links : ∀ i, i ≠ 0 → ∃ m, Counts m (· == i) (named f) ∧ LinkCount strict m (ps.count i) (f i)
  single : ∀ x y, 2 ≤ x.2 → 2 ≤ y.2 → named f x = named f y → (f (named f x)).type = tDir → x = y
  root : Linked f rootIno
  root_up : ent f rootIno 1 = rootIno
  root_top : ∀ x, 2 ≤ x.2 → named f x ≠ rootIno
  parent : ∀ d, Linked f d → d ≠ rootIno →
    Linked f (ent f d 1) ∧ ∃ k, 2 ≤ k ∧ ent f (ent f d 1) k = d
  removed : ∀ x, 2 ≤ x.2 → named f x ≠ 0 → ¬0 < (f x.1).nlink →
    (f (named f x)).type ≠ tDir ∧ strict = false

theorem named_update (f : Nat → Inode) (d : Nat) (ip : Inode) (x : Nat × Nat) :
    named (Function.update f d ip) x = if x.1 = d then namedAt ip x.2 else named f x := by
  rw [named]
  split
  · next h => rw [h, Function.update_self]
  · next h => rw [Function.update_of_ne h, named]

theorem named_ge (h : 2 ≤ x.2) (hd : (f x.1).type = tDir) : named f x = ent f x.1 x.2 := by
  rw [named, namedAt, if_pos ⟨hd, .inl h⟩, ent]

theorem named_up (h : Linked f d) : named f (d, 1) = ent f d 1 := by
  rw [named, namedAt, if_pos ⟨h.1, .inr ⟨rfl, h.2⟩⟩, ent]

theorem of_named_ne (h : named f x ≠ 0) : (f x.1).type = tDir ∧
    (2 ≤ x.2 ∨ x.2 = 1 ∧ 0 < (f x.1).nlink) ∧ named f x = ent f x.1 x.2 := by
  rw [named, namedAt] at h ⊢
  split at h
  · next hc =>
    rw [if_pos hc]
    exact ⟨hc.1, hc.2, rfl⟩
  · exact absurd rfl h

theorem Tree.of_named (h : Tree strict ps n f) (hi : i ≠ 0) (hx : named f x = i) :
    (f i).type ≠ 0 ∧ 0 < (f i).nlink := by
  obtain ⟨m, hm, hc⟩ := h.links i hi
  have hpos : 0 < m := hm.pos (p := x) (by simp [hx])
  have ht : (f i).type ≠ 0 := by
    intro h₀
    have h₁ := (hc.free h₀).1
    omega
  refine ⟨ht, pos_iff_toInt.2 ?_⟩
  have hle := hc.le ht
  omega

theorem Tree.nlink_nonneg (h : Tree strict ps n f) (ht : (f i).type ≠ 0) :
    0 ≤ (f i).nlink.toInt := by
  have hi := (h.inum i ht).1
  obtain ⟨m, -, hc⟩ := h.links i (by omega)
  have hle := hc.le ht
  omega

theorem Tree.named_ne_free (h : Tree strict ps n f) (hi : i ≠ 0) (ht : (f i).type = 0)
    (x : Nat × Nat) : named f x ≠ i := by
  intro hx
  exact (h.of_named hi hx).1 ht

theorem Tree.linked_up (h : Tree strict ps n f) (hd : Linked f d) : Linked f (ent f d 1) := by
  by_cases hr : d = rootIno
  · subst hr
    rw [h.root_up]
    exact h.root
  · exact (h.parent d hd hr).1

end Xv6.Sys
