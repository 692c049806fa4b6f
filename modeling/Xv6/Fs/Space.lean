import Xv6.Fs.Contents
import Mathlib.Data.Finset.Union
import Mathlib.Order.Interval.Finset.Nat

namespace Xv6.Fs
open Lib Function
set_option autoImplicit true

variable {s s₁ s' : St} {ip ip₁ ip' : Inode} {f : Nat → Option Inode} {i k l a b c n bn : Nat}
  {S : Finset Nat}

def St.free (s : St) : Finset Nat :=
  (Finset.range s.sb.size).filter fun b => s.bit b = false

def missing (s : St) (ip : Inode) (S : Finset Nat) : Finset Nat :=
  S.filter fun l => slotAddr s.blocks ip l = 0

/-- There is a free block for each slot that has none. -/
def Enough (s : St) (ip : Inode) (S : Finset Nat) : Prop :=
  (missing s ip S).card ≤ s.free.card

instance (s : St) (ip : Inode) (S : Finset Nat) : Decidable (Enough s ip S) :=
  inferInstanceAs (Decidable (_ ≤ _))

def pathTo (bn : Nat) : Finset Nat :=
  if bn < nDirect then {bn} else {nDirect, bn + 1}

def slots (off n : Nat) : Finset Nat :=
  (Finset.Ico off (off + n)).biUnion fun k => pathTo (k / bSize)

theorem mem_free : b ∈ s.free ↔ b < s.sb.size ∧ s.bit b = false := by
  rw [St.free, Finset.mem_filter, Finset.mem_range]

theorem mem_missing : l ∈ missing s ip S ↔ l ∈ S ∧ slotAddr s.blocks ip l = 0 :=
  Finset.mem_filter

theorem pathTo_subset (h : off ≤ k) (hk : k < off + n) : pathTo (k / bSize) ⊆ slots off n :=
  Finset.subset_biUnion_of_mem (fun k => pathTo (k / bSize)) (Finset.mem_Ico.2 ⟨h, hk⟩)

theorem slots_mono (h : off ≤ off') (hn : off' + n' ≤ off + n) : slots off' n' ⊆ slots off n :=
  Finset.biUnion_subset_biUnion_of_subset_left _ (Finset.Ico_subset_Ico h hn)

theorem Enough.mono (h : Enough s ip S') (hS : S ⊆ S') : Enough s ip S :=
  Nat.le_trans (Finset.card_le_card (Finset.filter_subset_filter _ hS)) h

theorem Enough.congr (h : Enough s ip S) (hsb : s'.sb = s.sb)
    (hbit : ∀ c, c < s.sb.size → s'.bit c = s.bit c)
    (hslot : ∀ l, slotAddr s'.blocks ip' l = slotAddr s.blocks ip l) : Enough s' ip' S := by
  have hfree : s'.free = s.free := by
    ext c
    rw [mem_free, mem_free, hsb]
    apply and_congr_right
    intro hc
    rw [hbit c hc]
  have hmissing : missing s' ip' S = missing s ip S := by
    ext l
    rw [mem_missing, mem_missing, hslot]
  rw [Enough, hfree, hmissing]
  exact h

theorem Alloc.free_erase (ha : Alloc s s₁ b) (hsb : s'.sb = s.sb)
    (hbit : ∀ c, c < s.sb.size → s'.bit c = s₁.bit c) : s'.free = s.free.erase b := by
  ext c
  rw [Finset.mem_erase, mem_free, mem_free, hsb, and_left_comm]
  apply and_congr_right
  intro hc
  rw [hbit c hc, ha.bit c hc]
  simp [and_comm]

theorem Enough.grow (h : Enough s ip S) (ha : Alloc s s₁ b) (hb : b ≠ 0) (hsb : s'.sb = s.sb)
    (hbit : ∀ c, c < s.sb.size → s'.bit c = s₁.bit c)
    (hself : ∀ l, slotAddr s'.blocks ip' l = if l = k then b else slotAddr s.blocks ip l)
    (hk : k ∈ S) (hz : slotAddr s.blocks ip k = 0) : Enough s' ip' S := by
  have hfree := ha.free_erase hsb hbit
  have hmissing : missing s' ip' S = (missing s ip S).erase k := by
    ext l
    rw [Finset.mem_erase, mem_missing, mem_missing, hself, and_left_comm]
    apply and_congr_right
    intro _
    by_cases hl : l = k
    · simp [hl, hb]
    · simp [hl]
  rw [Enough, hfree, hmissing, Finset.card_erase_of_mem (mem_free.2 ⟨ha.lt, ha.free⟩),
    Finset.card_erase_of_mem (mem_missing.2 ⟨hk, hz⟩)]
  exact Nat.sub_le_sub_right h 1

theorem clearBitIn_none (h : clearBitIn blk len = none) (hb : bi < len) : bitAt blk bi = true := by
  have hall := List.find?_eq_none.1 h bi (List.mem_range.2 hb)
  simpa using hall

theorem findFree_none (h : s.findFree = none) (hb : b < s.sb.size) : s.bit b = true := by
  have hk : b / bpb < (s.sb.size + (bpb - 1)) / bpb := by
    simp only [bpb, bSize]
    omega
  have hnone := List.findSome?_eq_none_iff.1 h (b / bpb) (List.mem_range.2 hk)
  have hlt : b % bpb < min bpb (s.sb.size - b / bpb * bpb) := by
    simp only [bpb, bSize]
    omega
  have hblock : s.sb.bblock (b / bpb * bpb) = s.sb.bblock b := by
    simp only [Superblock.bblock, bpb, bSize]
    omega
  rw [hblock] at hnone
  exact clearBitIn_none (Option.map_eq_none_iff.1 hnone) hlt

theorem Enough.balloc (h : Enough s ip S) (hk : k ∈ S) (hz : slotAddr s.blocks ip k = 0) :
    ∃ s' b, balloc s = .ok (s', b) := by
  have hpos : 0 < (missing s ip S).card := Finset.card_pos.2 ⟨k, mem_missing.2 ⟨hk, hz⟩⟩
  obtain ⟨b, hb⟩ := Finset.card_pos.1 (Nat.lt_of_lt_of_le hpos h)
  obtain ⟨hlt, hfree⟩ := mem_free.1 hb
  rw [Fs.balloc]
  split
  · exact ⟨_, _, rfl⟩
  · next hn =>
    rw [findFree_none hn hlt] at hfree
    cases hfree

theorem Enough.addrOf (h : Guarded s f) (hi : f i = some ip) (he : Enough s ip S)
    (k : Fin (nDirect + 1)) (hk : k.val ∈ S) :
    ∃ s' ip' a, addrOf s ip k = .ok (s', ip', a) ∧ Enough s' ip' S := by
  rw [Fs.addrOf]
  split
  · next hz =>
    have hslot : slotAddr s.blocks ip k.val = 0 := by
      rw [slotAddr, dif_pos k.isLt]
      exact hz
    obtain ⟨s₁, b, hb⟩ := he.balloc hk hslot
    obtain ⟨ha, hd⟩ := alloc_of_balloc h.layout h.metadata hb
    rw [hb, ok_bind]
    exact ⟨_, _, _, rfl, he.grow ha (h.layout.pos_of_data hd) ha.sb (fun _ _ => rfl)
      (slotAddr_update ha h hi hd k hz) hk hslot⟩
  · exact ⟨_, _, _, rfl, he⟩

theorem Enough.entry (h : Guarded s f) (hi : f i = some ip) (he : Enough s ip S)
    (hz : ip.addrs (Fin.last nDirect) ≠ 0) (hbn : ¬bn < nDirect) (hlt : bn - nDirect < nIndirect)
    (hk : slot bn ∈ S) (hs : slotAddr s.blocks ip (slot bn) = 0) :
    ∃ s₁ b, Fs.balloc s = .ok (s₁, b) ∧ Enough (s₁.setBlock (ip.addrs (Fin.last nDirect))
      (putWord (s₁.blocks (ip.addrs (Fin.last nDirect))) (bn - nDirect) b)) ip S := by
  obtain ⟨s₁, b, hb⟩ := he.balloc hk hs
  obtain ⟨ha, hd⟩ := alloc_of_balloc h.layout h.metadata hb
  have hsize : b < 2 ^ 32 := by
    have hsize := Nat.lt_trans ha.lt h.layout.size_lt
    omega
  refine ⟨s₁, b, hb, he.grow ha (h.layout.pos_of_data hd) ha.sb ?_ ?_ hk hs⟩
  · intro c hc
    apply bit_setBlock_data <;> rw [ha.sb]
    · exact h.layout
    · exact h.last_inData hi hz
    · exact hc
  · apply slotAddr_putWord ip hz _ hbn hlt hsize
    rw [← ha.blocks_last h hi hd hz]
    exact update_self ..

theorem slot_mem_pathTo (bn : Nat) : slot bn ∈ pathTo bn := by
  rw [slot, pathTo]
  split
  · exact Finset.mem_singleton_self _
  · exact Finset.mem_insert_of_mem (Finset.mem_singleton_self _)

theorem last_mem_pathTo (h : ¬bn < nDirect) : nDirect ∈ pathTo bn := by
  rw [pathTo, if_neg h]
  exact Finset.mem_insert_self _ _

theorem Enough.bmap (h : Guarded s f) (hi : f i = some ip) (he : Enough s ip S)
    (hbn : bn < maxFile) (hS : pathTo bn ⊆ S) :
    ∃ s' ip' a, Fs.bmap s ip bn = .ok (s', ip', a) ∧ Enough s' ip' S := by
  have hslot := hS (slot_mem_pathTo bn)
  rw [Fs.bmap]
  split
  · next hd =>
    rw [slot, if_pos hd] at hslot
    exact he.addrOf h hi _ hslot
  · next hd =>
    have hlt : bn - nDirect < nIndirect := by
      simp only [maxFile] at hbn
      omega
    rw [if_pos hlt]
    obtain ⟨s₁, ip₁, addr, ho, he₁⟩ := he.addrOf h hi (Fin.last nDirect) (hS (last_mem_pathTo hd))
    obtain ⟨hg, rfl, hz⟩ := addrOf_grows h hi _ ho
    rw [ho, ok_bind]
    dsimp only
    split
    · next hw =>
      have hs : slotAddr s₁.blocks ip₁ (slot bn) = 0 := by
        rw [slotAddr_entry _ _ hd hlt hz, hw]
      obtain ⟨s₂, b, hb, he₂⟩ := he₁.entry hg.guarded (update_self ..) hz hd hlt hslot hs
      rw [hb, ok_bind]
      exact ⟨_, _, _, rfl, he₂⟩
    · exact ⟨_, _, _, rfl, he₁⟩

theorem Enough.writeLoop (h : Guarded s f) (hi : f i = some ip) (he : Enough s ip S)
    (hmax : off + n ≤ maxFile * bSize) (hS : slots off n ⊆ S) (hn : n ≤ fuel) (src : Nat → UInt8) :
    ∃ s' ip', Fs.writeLoop fuel s ip src off n = .ok (s', ip') ∧ Enough s' ip' S := by
  induction fuel generalizing s f ip src off n with
  | zero => exact ⟨s, ip, rfl, he⟩
  | succ fuel ih =>
    rw [Fs.writeLoop]
    split
    · exact ⟨s, ip, rfl, he⟩
    · next hz =>
      have hbn : off / bSize < maxFile := by
        simp only [maxFile, nDirect, nIndirect, bSize] at hmax ⊢
        omega
      have hpath : pathTo (off / bSize) ⊆ S :=
        Finset.Subset.trans (pathTo_subset (Nat.le_refl off) (by omega)) hS
      obtain ⟨s₁, ip₁, a, hb, he₁⟩ := he.bmap h hi hbn hpath
      have hround : Fills s _ f i ip ip₁ off _ src :=
        round_fills h hi hb (Nat.min_le_right n (bSize - off % bSize)) rfl
      rw [hb, ok_bind]
      dsimp only
      have hle : min n (bSize - off % bSize) ≤ n := Nat.min_le_left _ _
      have hpos : 0 < min n (bSize - off % bSize) := by
        simp only [bSize]
        omega
      obtain ⟨hg, ha, hza⟩ := bmap_grows h hi hb
      have hi₁ : update f i (some ip₁) i = some ip₁ := update_self ..
      have hd : InData s₁.sb a := by
        rw [← ha] at hza ⊢
        exact hg.guarded.inData hi₁ hza
      generalize min n (bSize - off % bSize) = m at *
      apply ih hround.guarded hi₁
      · exact he₁.congr rfl (fun c hc => bit_setBlock_data hg.guarded.layout hd _ hc)
          (fun _ => hg.guarded.slotAddr_setBlock hi₁ ha hi₁ _)
      · omega
      · exact Finset.Subset.trans (slots_mono (by omega) (by omega)) hS
      · omega

/-- `writei` of bytes that fit, with space for them, writes them all. -/
theorem Enough.writei (h : Intact s) (hi : s.icache i = some ip) (ht : ip.type ≠ tDev)
    (he : Enough s ip S) {off n : UInt32} (hoff : off.toNat ≤ ip.size)
    (hmax : off.toNat + n.toNat ≤ maxFile * bSize) (hS : slots off.toNat n.toNat ⊆ S)
    (devsw : Devsw) (src : Nat → UInt8) :
    ∃ s' ip', Fs.writei devsw s i ip src off n = .ok (s', ip', n.toNat) ∧
      Enough (s'.cache i ip') ip' S := by
  have hi' : s.inodes i = some ip := by
    rw [St.inodes, hi]
  have hadd : (off + n).toNat = off.toNat + n.toNat := by
    rw [UInt32.toNat_add]
    simp only [maxFile, nDirect, nIndirect, bSize] at hmax
    omega
  have hov : ¬(ip.size < off.toNat ∨ off + n < off) := by
    rw [UInt32.lt_iff_toNat_lt, hadd]
    omega
  obtain ⟨s₁, ip₁, ho, he₁⟩ := he.writeLoop h.guarded hi' hmax hS (Nat.le_refl _) src
  have hf := writeLoop_fills h.guarded hi' (Nat.le_refl _) ho
  rw [Fs.writei, if_neg ht, if_neg hov, hadd, if_neg (Nat.not_lt.2 hmax), ho, ok_bind]
  have hlt : i < s₁.sb.ninodes := by
    rw [hf.sb]
    exact h.inum i ip hi'
  dsimp only
  split
  · refine ⟨_, _, rfl, he₁.congr rfl ?_ ?_⟩
    · exact fun c hc => hf.guarded.layout.bit_iupdate hlt hc
    · intro l
      show slotAddr (iupdate s₁ i _).blocks ip₁ l = slotAddr s₁.blocks ip₁ l
      exact hf.guarded.slotAddr_iupdate hlt (update_self ..) l
  · exact ⟨_, _, rfl, he₁.congr rfl (fun _ _ => rfl) fun _ => rfl⟩

end Xv6.Fs
