import Xv6.Fs.Inode
import Xv6.Lib.Ownership

namespace Xv6.Fs
open Lib Function
set_option autoImplicit true

variable {s s' : St} {ip jp : Inode} {i j k a b n bn : Nat}

def InData (sb : Superblock) (b : Nat) : Prop := sb.dataStart ≤ b ∧ b < sb.size

def St.allocated (s : St) (i : Nat) : Option Inode :=
  if i < s.sb.ninodes ∧ (s.dinode i).type ≠ 0 then some (s.dinode i) else none

/-- The addresses of an inode, then those of its indirect block. -/
def slotAddr (blocks : Nat → Block) (ip : Inode) (k : Nat) : Nat :=
  if h : k < nDirect + 1 then ip.addrs ⟨k, h⟩
  else if ip.addrs (Fin.last nDirect) = 0 ∨ nDirect + 1 + nIndirect ≤ k then 0
  else getWord (blocks (ip.addrs (Fin.last nDirect))) (k - (nDirect + 1))

/-- Who holds which block: slot `k` of inode `i`. -/
def own (blocks : Nat → Block) (f : Nat → Option Inode) (x : Nat × Nat) : Option Nat :=
  match f x.1 with
  | some ip => if slotAddr blocks ip x.2 = 0 then none else some (slotAddr blocks ip x.2)
  | none => none

def slot (bn : Nat) : Nat := if bn < nDirect then bn else bn + 1

/-- The inode has addresses for its first `n` blocks and no others. -/
def Shaped (blocks : Nat → Block) (ip : Inode) (n : Nat) : Prop :=
  ∀ bn, bn < maxFile → (slotAddr blocks ip (slot bn) ≠ 0 ↔ bn < n)

def blockCount (size : Nat) : Nat := (size + (bSize - 1)) / bSize

theorem own_eq_some {f : Nat → Option Inode} : own blocks f (i, k) = some a ↔
    ∃ ip, f i = some ip ∧ slotAddr blocks ip k = a ∧ a ≠ 0 := by
  rw [own]
  split
  · next ip hi =>
    simp only at hi
    simp only [hi, Option.some.injEq, exists_eq_left']
    split
    · next h =>
      simp only [h, reduceCtorEq, false_iff, not_and, not_not]
      exact Eq.symm
    · next h =>
      simp only [Option.some.injEq]
      constructor
      · rintro rfl
        exact ⟨rfl, h⟩
      · exact And.left
  · next hi =>
    simp only at hi
    simp [hi]

theorem Superblock.Ok.iblock_ne_bblock {sb : Superblock} (h : sb.Ok) (hi : i < sb.ninodes)
    (b : Nat) : sb.iblock i ≠ sb.bblock b := by
  have h₁ := h.iblock_lt i hi
  have h₂ := sb.bmapstart_le_bblock b
  omega

theorem Superblock.Ok.iblock_ne_data {sb : Superblock} (h : sb.Ok) (hi : i < sb.ninodes)
    (hb : InData sb b) : sb.iblock i ≠ b := by
  have h₁ := h.iblock_lt i hi
  have h₂ := sb.bmapstart_le_bblock b
  have h₃ := h.bblock_lt b hb.2
  have h₄ := hb.1
  omega

theorem Superblock.Ok.bblock_ne_data {sb : Superblock} (h : sb.Ok) (hc : c < sb.size)
    (hb : InData sb b) : sb.bblock c ≠ b := by
  have h₁ := h.bblock_lt c hc
  have h₂ := hb.1
  omega

theorem Superblock.Ok.pos_of_data {sb : Superblock} (h : sb.Ok) (hb : InData sb b) :
    b ≠ 0 := by
  have h₁ := h.bblock_lt b hb.2
  have h₂ := hb.1
  omega

theorem allocated_eq_some : s.allocated i = some ip ↔
    i < s.sb.ninodes ∧ ip.type ≠ 0 ∧ s.dinode i = ip := by
  rw [St.allocated]
  split
  · next h =>
    simp only [Option.some.injEq]
    constructor
    · rintro rfl
      exact ⟨h.1, h.2, rfl⟩
    · exact fun h => h.2.2
  · next h =>
    simp only [reduceCtorEq, false_iff]
    rintro ⟨h₁, h₂, rfl⟩
    exact h ⟨h₁, h₂⟩

theorem allocated_congr (hsb : s'.sb = s.sb)
    (h : ∀ j, j < s.sb.ninodes → s'.blocks (s.sb.iblock j) = s.blocks (s.sb.iblock j)) :
    s'.allocated = s.allocated := by
  funext j
  by_cases hj : j < s.sb.ninodes
  · have hd : s'.dinode j = s.dinode j := by simp only [St.dinode, hsb, h j hj]
    simp only [St.allocated, hsb, hd]
  · simp [St.allocated, hsb, hj]

theorem slotAddr_congr (h : ip.addrs (Fin.last nDirect) ≠ 0 →
    blocks' (ip.addrs (Fin.last nDirect)) = blocks (ip.addrs (Fin.last nDirect))) :
    slotAddr blocks' ip k = slotAddr blocks ip k := by
  simp only [slotAddr]
  split
  · rfl
  · split
    · rfl
    · next hne =>
      rw [h fun hz => hne (.inl hz)]

theorem slotAddr_last (blocks : Nat → Block) (ip : Inode) :
    slotAddr blocks ip nDirect = ip.addrs (Fin.last nDirect) := by
  rw [slotAddr, dif_pos (Nat.lt_succ_self nDirect)]
  rfl

/-- The bit map and the free blocks after one has been handed out. -/
structure Alloc (s s' : St) (b : Nat) : Prop where
  sb : s'.sb = s.sb
  icache : s'.icache = s.icache
  lt : b < s.sb.size
  free : s.bit b = false
  bit : ∀ c, c < s.sb.size → s'.bit c = (s.bit c || decide (c = b))
  zero : s'.blocks b = fun _ => 0
  frame : ∀ n, n ≠ b → n ≠ s.sb.bblock b → s'.blocks n = s.blocks n

theorem clearBitIn_some (h : clearBitIn blk len = some bi) : bi < len ∧ bitAt blk bi = false := by
  have hmem := List.mem_of_find?_eq_some h
  have hbit := List.find?_some h
  simp only [Bool.not_eq_true'] at hbit
  exact ⟨List.mem_range.1 hmem, hbit⟩

theorem findFree_some (h : s.findFree = some b) : b < s.sb.size ∧ s.bit b = false := by
  obtain ⟨k, -, hk⟩ := List.exists_of_findSome?_eq_some h
  obtain ⟨bi, hbi, rfl⟩ := Option.map_eq_some_iff.1 hk
  obtain ⟨hlt, hbit⟩ := clearBitIn_some hbi
  have hb : bi < bpb := Nat.lt_of_lt_of_le hlt (Nat.min_le_left _ _)
  have hs : bi < s.sb.size - k * bpb := Nat.lt_of_lt_of_le hlt (Nat.min_le_right _ _)
  have hpos : 0 < bpb := by decide
  have hdiv : (k * bpb + bi) / bpb = k * bpb / bpb := by
    rw [Nat.mul_comm, Nat.mul_add_div hpos, Nat.div_eq_of_lt hb, Nat.add_zero,
      Nat.mul_div_cancel_left k hpos]
  have hmod : (k * bpb + bi) % bpb = bi := by
    rw [Nat.mul_comm, Nat.mul_add_mod, Nat.mod_eq_of_lt hb]
  refine ⟨by omega, ?_⟩
  rw [St.bit, hmod]
  simpa only [Superblock.bblock, hdiv] using hbit

theorem bit_setBlock (hn : ∀ c, c < s.sb.size → s.sb.bblock c ≠ n) (hc : c < s.sb.size) :
    (s.setBlock n blk).bit c = s.bit c := by
  simp only [St.bit, St.setBlock, update_of_ne (hn c hc)]

theorem bit_setBlock_bblock {g : Block → Nat → Block} {h : Bool → Bool → Bool}
    (hg : ∀ blk j, bitAt (g blk (b % bpb)) j = h (bitAt blk j) (decide (j = b % bpb)))
    (hh : ∀ x, h x false = x) (c : Nat) :
    (s.setBlock (s.sb.bblock b) (g (s.blocks (s.sb.bblock b)) (b % bpb))).bit c =
      h (s.bit c) (decide (c = b)) := by
  simp only [St.bit, St.setBlock]
  by_cases hc : s.sb.bblock c = s.sb.bblock b
  · rw [hc, update_self, hg]
    congr 1
    simp only [decide_eq_decide]
    simp only [Superblock.bblock, bpb, bSize] at hc ⊢
    omega
  · rw [update_of_ne hc]
    have hne : c ≠ b := by
      rintro rfl
      exact hc rfl
    simp only [hne, decide_false, hh]

theorem mod_bpb_div_lt (b : Nat) : b % bpb / 8 < bSize := by
  simp only [bpb, bSize]
  omega

theorem alloc_of_balloc (hok : s.sb.Ok) (hmeta : ∀ b, b < s.sb.dataStart → b < s.sb.size →
    s.bit b = true) (h : balloc s = .ok (s', b)) : Alloc s s' b ∧ InData s.sb b := by
  rw [balloc] at h
  split at h
  · next b' hb =>
    cases h
    obtain ⟨hlt, hfree⟩ := findFree_some hb
    have hdata : InData s.sb b := by
      refine ⟨?_, hlt⟩
      by_contra hn
      rw [hmeta b (by omega) hlt] at hfree
      cases hfree
    refine ⟨⟨rfl, rfl, hlt, hfree, ?_, update_self .., ?_⟩, hdata⟩
    · intro c hc
      rw [bzero, bit_setBlock]
      · exact bit_setBlock_bblock (g := setBit) (h := (· || ·))
          (fun blk j => bitAt_setBit blk (mod_bpb_div_lt b) j) Bool.or_false c
      · exact fun c hc => hok.bblock_ne_data hc hdata
      · exact hc
    · intro n hnb hnm
      simp only [bzero, St.setBlock, update_of_ne hnb, update_of_ne hnm]
  · cases h

theorem balloc_error (h : balloc s = .error e) : e = .panic "balloc: out of blocks" := by
  rw [balloc] at h
  split at h
  · cases h
  · cases h
    rfl

theorem bfree_ok (hb : s.bit b = true) : ∃ s', bfree s b = .ok s' ∧ s'.sb = s.sb ∧
    s'.icache = s.icache ∧ (∀ c, s'.bit c = (s.bit c && !decide (c = b))) ∧
    ∀ n, n ≠ s.sb.bblock b → s'.blocks n = s.blocks n := by
  rw [bfree]
  simp only [St.bit] at hb
  simp only [hb, Bool.true_eq_false, ↓reduceIte, Except.ok.injEq, exists_eq_left']
  refine ⟨rfl, rfl, ?_, ?_⟩
  · intro c
    exact bit_setBlock_bblock (g := clearBit) (h := fun x y => x && !y)
      (fun blk j => bitAt_clearBit blk (mod_bpb_div_lt b) j) (fun x => by simp) c
  · intro n hn
    exact update_of_ne hn _ _

/-- The bit map marks the metadata and the blocks with an owner in `o`. -/
structure Marks (s : St) (o : Nat × Nat → Option Nat) : Prop where
  layout : s.sb.Ok
  owns : Owns (InData s.sb) (fun b => s.bit b = true) o
  metadata : ∀ b, b < s.sb.dataStart → b < s.sb.size → s.bit b = true

/-- The bit map is exact for the inodes `f`. -/
abbrev Sound (s : St) (f : Nat → Option Inode) : Prop := Marks s (own s.blocks f)

theorem own_of_slot {f : Nat → Option Inode} (hi : f i = some ip)
    (hk : slotAddr blocks ip k ≠ 0) : own blocks f (i, k) = some (slotAddr blocks ip k) :=
  own_eq_some.2 ⟨ip, hi, rfl, hk⟩

/-- The bit map marks the metadata and the blocks of the inodes `f`, which share none. -/
structure Guarded (s : St) (f : Nat → Option Inode) : Prop where
  layout : s.sb.Ok
  holds : Holds (InData s.sb) (fun b => s.bit b = true) (own s.blocks f)
  metadata : ∀ b, b < s.sb.dataStart → b < s.sb.size → s.bit b = true

theorem Sound.guarded (h : Sound s f) : Guarded s f :=
  ⟨h.layout, h.owns.holds, h.metadata⟩

theorem Guarded.inData (h : Guarded s f) (hi : f i = some ip)
    (hk : slotAddr s.blocks ip k ≠ 0) : InData s.sb (slotAddr s.blocks ip k) :=
  h.holds.inside _ _ (own_of_slot hi hk)

theorem Guarded.slot_inj (h : Guarded s f) (hi : f i = some ip) (hj : f j = some jp)
    (hk : slotAddr s.blocks ip k ≠ 0)
    (he : slotAddr s.blocks ip k = slotAddr s.blocks jp l) : i = j ∧ k = l := by
  have h₁ := own_of_slot hi hk
  have h₂ := own_of_slot hj (he ▸ hk)
  rw [← he] at h₂
  exact Prod.mk.inj (h.holds.unique _ _ _ h₁ h₂)

theorem Guarded.ne_of_free (h : Guarded s f) (hi : f i = some ip) (hb : s.bit b = false)
    (hb0 : b ≠ 0) : slotAddr s.blocks ip k ≠ b := by
  rintro rfl
  have hu := h.holds.used _ _ (own_of_slot hi hb0)
  cases hb.symm.trans hu

theorem Guarded.last_inData (h : Guarded s f) (hi : f i = some ip)
    (hk : ip.addrs (Fin.last nDirect) ≠ 0) : InData s.sb (ip.addrs (Fin.last nDirect)) := by
  rw [← slotAddr_last s.blocks ip] at hk ⊢
  exact h.inData hi hk

theorem Guarded.slotAddr_alloc (h : Guarded s f) (hi : f i = some ip) (ha : Alloc s s' b)
    (hd : InData s.sb b) : slotAddr s'.blocks ip k = slotAddr s.blocks ip k := by
  apply slotAddr_congr
  intro hne
  apply ha.frame
  · rw [← slotAddr_last s.blocks ip]
    exact h.ne_of_free hi ha.free (h.layout.pos_of_data hd)
  · exact (h.layout.bblock_ne_data ha.lt (h.last_inData hi hne)).symm

theorem own_grow {f : Nat → Option Inode} (hi : f i = some ip) (hb : b ≠ 0)
    (hself : ∀ l, slotAddr blocks' ip' l = if l = k then b else slotAddr blocks ip l)
    (hothers : ∀ j jp, j ≠ i → f j = some jp → ∀ l, slotAddr blocks' jp l = slotAddr blocks jp l) :
    own blocks' (update f i (some ip')) =
      update (own blocks f) (i, k) (some b) := by
  funext ⟨j, l⟩
  by_cases hji : j = i
  · subst hji
    by_cases hlk : l = k
    · subst hlk
      simp only [own, update_self, hself, ↓reduceIte, hb]
    · rw [update_of_ne (by simpa using hlk)]
      simp only [own, update_self, hself, hlk, ↓reduceIte, hi]
  · rw [update_of_ne (by simp [hji])]
    simp only [own, update_of_ne hji]
    split
    · next jp hj => simp only [hothers j jp hji hj]
    · rfl

section Grow
variable {f : Nat → Option Inode} {ip' : Inode} {s₁ : St} (hi : f i = some ip) (ha : Alloc s s₁ b) (hd : InData s.sb b) (hsb : s'.sb = s.sb)
  (hbit : ∀ c, c < s.sb.size → s'.bit c = s₁.bit c)
  (hself : ∀ l, slotAddr s'.blocks ip' l = if l = k then b else slotAddr s.blocks ip l)
  (hothers : ∀ j jp, j ≠ i → f j = some jp → ∀ l, slotAddr s'.blocks jp l = slotAddr s.blocks jp l)

include ha hsb hbit in
theorem Alloc.used (hm : ∀ b, b < s.sb.dataStart → b < s.sb.size → s.bit b = true) :
    (∀ c, InData s.sb c → (s'.bit c = true ↔ s.bit c = true ∨ c = b)) ∧
      ∀ c, c < s'.sb.dataStart → c < s'.sb.size → s'.bit c = true := by
  constructor
  · intro c hc
    rw [hbit c hc.2, ha.bit c hc.2]
    simp
  · rw [hsb]
    intro c hc hlt
    rw [hbit c hlt, ha.bit c hlt, hm c hc hlt]
    rfl

include hi ha hd hsb hbit hself hothers

theorem Guarded.grow (h : Guarded s f) : Guarded s' (update f i (some ip')) := by
  have hown := own_grow hi (h.layout.pos_of_data hd) hself hothers
  obtain ⟨hused, hmeta⟩ := ha.used hsb hbit h.metadata
  refine ⟨hsb ▸ h.layout, ?_, hmeta⟩
  rw [hown, hsb]
  exact h.holds.take hd (by simp [ha.free]) hused

theorem Sound.grow (h : Sound s f) (hz : slotAddr s.blocks ip k = 0) :
    Sound s' (update f i (some ip')) := by
  have hown := own_grow hi (h.layout.pos_of_data hd) hself hothers
  obtain ⟨hused, hmeta⟩ := ha.used hsb hbit h.metadata
  refine ⟨hsb ▸ h.layout, ?_, hmeta⟩
  rw [hown, hsb]
  exact h.owns.take hd (by simp [ha.free]) (by simp [own, hi, hz]) hused

end Grow

end Xv6.Fs
