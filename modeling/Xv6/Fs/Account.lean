import Xv6.Fs.Space

namespace Xv6.Fs
open Lib Function
set_option autoImplicit true

variable {s s₁ s' : St} {ip ip₁ ip' : Inode} {f : Nat → Option Inode} {i k l a b n m bn : Nat}
  {S S₁ S' : Finset Nat}

/-- The slots in `S` hold blocks, and no others. -/
def Owned (s : St) (ip : Inode) (S : Finset Nat) : Prop :=
  ∀ l, slotAddr s.blocks ip l ≠ 0 ↔ l ∈ S

/-- The blocks that an inode has got came from the free ones. -/
structure Account (s s' : St) (ip ip' : Inode) (S S' : Finset Nat) : Prop where
  owned : Owned s' ip' S'
  conserve : s'.free.card + S'.card = s.free.card + S.card

theorem Account.refl (h : Owned s ip S) : Account s s ip ip S S :=
  ⟨h, rfl⟩

theorem Account.trans (h : Account s s₁ ip ip₁ S S₁) (h' : Account s₁ s' ip₁ ip' S₁ S') :
    Account s s' ip ip' S S' :=
  ⟨h'.owned, h'.conserve.trans h.conserve⟩

theorem Account.congr (h : Account s s₁ ip ip' S S') (hsb : s'.sb = s₁.sb)
    (hbit : ∀ c, c < s₁.sb.size → s'.bit c = s₁.bit c)
    (hslot : ∀ l, slotAddr s'.blocks ip' l = slotAddr s₁.blocks ip' l) :
    Account s s' ip ip' S S' := by
  have hfree : s'.free = s₁.free := by
    ext c
    rw [mem_free, mem_free, hsb]
    apply and_congr_right
    intro hc
    rw [hbit c hc]
  constructor
  · intro l
    rw [hslot]
    exact h.owned l
  · rw [hfree]
    exact h.conserve

theorem Owned.grow (h : Owned s ip S) (ha : Alloc s s₁ b) (hb : b ≠ 0) (hsb : s'.sb = s.sb)
    (hbit : ∀ c, c < s.sb.size → s'.bit c = s₁.bit c)
    (hself : ∀ l, slotAddr s'.blocks ip' l = if l = k then b else slotAddr s.blocks ip l)
    (hz : slotAddr s.blocks ip k = 0) : Account s s' ip ip' S (insert k S) := by
  have hk : k ∉ S := fun hk => (h k).2 hk hz
  have hfree := mem_free.2 ⟨ha.lt, ha.free⟩
  have hpos : 0 < s.free.card := Finset.card_pos.2 ⟨b, hfree⟩
  constructor
  · intro l
    rw [hself, Finset.mem_insert, ← h l]
    by_cases hl : l = k
    · simp [hl, hb]
    · simp [hl]
  · rw [ha.free_erase hsb hbit, Finset.card_erase_of_mem hfree, Finset.card_insert_of_notMem hk]
    omega

theorem Owned.addrOf (h : Guarded s f) (hi : f i = some ip) (hS : Owned s ip S)
    (k : Fin (nDirect + 1)) (ho : addrOf s ip k = .ok (s', ip', a)) :
    Account s s' ip ip' S (insert k.val S) ∧ (k.val ∉ S → s'.blocks a = fun _ => 0) := by
  have hslot : slotAddr s.blocks ip k.val = ip.addrs k := by
    rw [slotAddr, dif_pos k.isLt]
  rw [Fs.addrOf] at ho
  split at ho
  · next hz =>
    obtain ⟨⟨s₁, b⟩, hb, he⟩ := bind_ok ho
    cases he
    obtain ⟨ha, hd⟩ := alloc_of_balloc h.layout h.metadata hb
    exact ⟨hS.grow ha (h.layout.pos_of_data hd) ha.sb (fun _ _ => rfl)
      (slotAddr_update ha h hi hd k hz) (hslot.trans hz), fun _ => ha.zero⟩
  · next hz =>
    cases ho
    have hk : k.val ∈ S := (hS k).1 (by rwa [hslot])
    rw [Finset.insert_eq_of_mem hk]
    exact ⟨.refl hS, fun hn => absurd hk hn⟩

theorem Owned.entry (h : Guarded s f) (hi : f i = some ip) (hS : Owned s ip S)
    (hz : ip.addrs (Fin.last nDirect) ≠ 0) (hbn : ¬bn < nDirect) (hlt : bn - nDirect < nIndirect)
    (hn : slotAddr s.blocks ip (slot bn) = 0) (hb : Fs.balloc s = .ok (s₁, b))
    (hs : s' = s₁.setBlock (ip.addrs (Fin.last nDirect))
      (putWord (s₁.blocks (ip.addrs (Fin.last nDirect))) (bn - nDirect) b)) :
    Account s s' ip ip S (insert (slot bn) S) ∧ s'.blocks b = fun _ => 0 := by
  obtain ⟨ha, hd⟩ := alloc_of_balloc h.layout h.metadata hb
  have hlast := h.last_inData hi hz
  have hsize : b < 2 ^ 32 := by
    have hsize := Nat.lt_trans ha.lt h.layout.size_lt
    omega
  have hsb : s'.sb = s.sb := by
    rw [hs]
    exact ha.sb
  have hbit (c : Nat) (hc : c < s.sb.size) : s'.bit c = s₁.bit c := by
    rw [hs]
    apply bit_setBlock_data <;> rw [ha.sb]
    · exact h.layout
    · exact hlast
    · exact hc
  have hstored : s'.blocks (ip.addrs (Fin.last nDirect)) =
      putWord (s.blocks (ip.addrs (Fin.last nDirect))) (bn - nDirect) b := by
    rw [hs, ← ha.blocks_last h hi hd hz]
    exact update_self ..
  constructor
  · exact hS.grow ha (h.layout.pos_of_data hd) hsb hbit
      (slotAddr_putWord ip hz hstored hbn hlt hsize) hn
  · have hne : b ≠ ip.addrs (Fin.last nDirect) := by
      rw [← slotAddr_last s.blocks ip]
      exact (h.ne_of_free hi ha.free (h.layout.pos_of_data hd)).symm
    rw [hs]
    exact (update_of_ne hne _ _).trans ha.zero

theorem union_pathTo (S : Finset Nat) (bn : Nat) :
    S ∪ pathTo bn = if bn < nDirect then insert bn S else insert (slot bn) (insert nDirect S) := by
  rw [pathTo, slot]
  split
  · rw [Finset.union_comm]
    rfl
  · ext l
    simp only [Finset.mem_union, Finset.mem_insert, Finset.mem_singleton]
    tauto

theorem Owned.bmap (h : Guarded s f) (hi : f i = some ip) (hS : Owned s ip S)
    (ho : Fs.bmap s ip bn = .ok (s', ip', a)) :
    Account s s' ip ip' S (S ∪ pathTo bn) ∧ (slot bn ∉ S → s'.blocks a = fun _ => 0) := by
  rw [union_pathTo]
  rw [Fs.bmap] at ho
  split at ho
  · next hd =>
    rw [if_pos hd, slot, if_pos hd]
    exact Owned.addrOf h hi hS _ ho
  · next hd =>
    rw [if_neg hd]
    obtain ⟨hlt, ho⟩ := if_ok ho
    obtain ⟨⟨s₁, ip₁, addr⟩, h₁, ho⟩ := bind_ok ho
    have hacc : Account s s₁ ip ip₁ S (insert nDirect S) := (Owned.addrOf h hi hS _ h₁).1
    obtain ⟨hg, rfl, hz⟩ := addrOf_grows h hi _ h₁
    have hslot := slotAddr_entry s₁.blocks ip₁ hd hlt hz
    simp only at ho
    split at ho
    · next hw =>
      obtain ⟨⟨s₂, b⟩, h₂, heq⟩ := bind_ok ho
      cases heq
      obtain ⟨hentry, hzero⟩ := Owned.entry hg.guarded (update_self ..) hacc.owned hz hd
        hlt (hslot.trans hw) h₂ rfl
      exact ⟨hacc.trans hentry, fun _ => hzero⟩
    · next hw =>
      cases ho
      have hmem : slot bn ∈ insert nDirect S := (hacc.owned _).1 (by rwa [hslot])
      rw [Finset.insert_eq_of_mem hmem]
      refine ⟨hacc, fun hn => ?_⟩
      rcases Finset.mem_insert.1 hmem with he | he
      · exact absurd he (slot_ne_last bn)
      · exact absurd he hn

/-- The blocks of an inode hold nothing from byte `n` on. -/
def Padded (s : St) (ip : Inode) (n : Nat) : Prop :=
  ∀ k, n ≤ k → Present s.blocks ip k → fileByte s.blocks ip k = 0

theorem slots_block (hpos : 0 < m) (hm : m ≤ bSize - off % bSize) :
    slots off m = pathTo (off / bSize) := by
  apply Finset.Subset.antisymm
  · apply Finset.biUnion_subset.2
    intro k hk
    rw [Finset.mem_Ico] at hk
    have hdiv : k / bSize = off / bSize := by
      simp only [bSize] at hm ⊢
      omega
    rw [hdiv]
  · exact pathTo_subset (Nat.le_refl off) (Nat.lt_add_of_pos_right hpos)

theorem slots_append (off m n : Nat) : slots off (m + n) = slots off m ∪ slots (off + m) n := by
  rw [slots, slots, slots, ← Finset.union_biUnion, Finset.Ico_union_Ico_eq_Ico, Nat.add_assoc]
  · omega
  · omega

theorem eq_of_slot_mem (h : slot k ∈ pathTo bn) : k = bn := by
  apply slot_inj
  rw [pathTo] at h
  split at h
  · next hd =>
    rw [Finset.mem_singleton.1 h, slot, if_pos hd]
  · next hd =>
    rcases Finset.mem_insert.1 h with he | he
    · exact absurd he (slot_ne_last _)
    · rw [Finset.mem_singleton.1 he, slot, if_neg hd]

theorem Owned.new_present (h' : Owned s' ip' (S ∪ pathTo bn)) (h : Owned s ip S)
    (hp : Present s'.blocks ip' k) (hn : ¬Present s.blocks ip k) : k / bSize = bn := by
  rcases Finset.mem_union.1 ((h' _).1 hp) with hmem | hmem
  · exact absurd ((h _).2 hmem) hn
  · exact eq_of_slot_mem hmem

theorem Owned.round (h : Guarded s f) (hi : f i = some ip) (hS : Owned s ip S)
    (hp : Padded s ip off) (hb : Fs.bmap s ip (off / bSize) = .ok (s₁, ip₁, a)) (hpos : 0 < m)
    (hm : m ≤ bSize - off % bSize)
    (hs : s' = s₁.setBlock a (memmove (s₁.blocks a) (off % bSize) m src)) :
    Account s s' ip ip₁ S (S ∪ slots off m) ∧ Padded s' ip₁ (off + m) := by
  have hfill : Fills s s' f i ip ip₁ off m src := round_fills h hi hb hm hs
  obtain ⟨hacc, hzero⟩ := hS.bmap h hi hb
  obtain ⟨hg, ha, hz⟩ := bmap_grows h hi hb
  have hi₁ : update f i (some ip₁) i = some ip₁ := update_self ..
  have hd : InData s₁.sb a := by
    rw [← ha] at hz ⊢
    exact hg.guarded.inData hi₁ hz
  have hslot (l : Nat) : slotAddr s'.blocks ip₁ l = slotAddr s₁.blocks ip₁ l := by
    rw [hs]
    exact hg.guarded.slotAddr_setBlock hi₁ ha hi₁ _
  have hacc' : Account s s' ip ip₁ S (S ∪ pathTo (off / bSize)) := by
    apply hacc.congr _ _ hslot
    · rw [hs]
      rfl
    · intro c hc
      rw [hs]
      exact bit_setBlock_data hg.guarded.layout hd _ hc
  rw [slots_block hpos hm]
  refine ⟨hacc', ?_⟩
  intro k hk hpres
  by_cases hold : Present s.blocks ip k
  · rw [hfill.kept k (.inr hk) hold]
    exact hp k (by omega) hold
  · have hbn := hacc'.owned.new_present hS hpres hold
    have hnew : slot (k / bSize) ∉ S := fun hmem => hold ((hS _).2 hmem)
    rw [hbn] at hnew
    have hout : ¬(off % bSize ≤ k % bSize ∧ k % bSize < off % bSize + m) := by
      simp only [bSize] at hbn ⊢
      omega
    have hblock : s'.blocks a = memmove (s₁.blocks a) (off % bSize) m src := by
      rw [hs]
      exact update_self ..
    rw [fileByte, hslot, hbn, ha, hblock, byteAt_memmove _ (Nat.mod_lt _ (by decide)),
      if_neg hout, hzero hnew]
    simp [byteAt]

theorem Owned.writeLoop (h : Guarded s f) (hi : f i = some ip) (hS : Owned s ip S)
    (hp : Padded s ip off) (hn : n ≤ fuel)
    (ho : Fs.writeLoop fuel s ip src off n = .ok (s', ip')) :
    Account s s' ip ip' S (S ∪ slots off n) ∧ Padded s' ip' (off + n) := by
  induction fuel generalizing s f ip src off n S with
  | zero =>
    obtain rfl := Nat.le_zero.1 hn
    cases ho
    have hnone : S ∪ slots off 0 = S := by simp [slots]
    rw [hnone]
    exact ⟨.refl hS, hp⟩
  | succ fuel ih =>
    rw [Fs.writeLoop] at ho
    split at ho
    · next hz =>
      cases ho
      have hnone : S ∪ slots off 0 = S := by simp [slots]
      rw [hz, hnone]
      exact ⟨.refl hS, hp⟩
    · next hz =>
      obtain ⟨⟨s₁, ip₁, a⟩, hb, ho⟩ := bind_ok ho
      have hle : min n (bSize - off % bSize) ≤ n := Nat.min_le_left _ _
      have hm : min n (bSize - off % bSize) ≤ bSize - off % bSize := Nat.min_le_right _ _
      have hpos : 0 < min n (bSize - off % bSize) := by
        simp only [bSize]
        omega
      dsimp only at ho
      generalize min n (bSize - off % bSize) = m at *
      have hround : Fills s _ f i ip ip₁ off _ src := round_fills h hi hb hm rfl
      obtain ⟨hacc, hpad⟩ := hS.round h hi hp hb hpos hm rfl
      obtain ⟨hacc', hpad'⟩ := ih hround.guarded (update_self ..) hacc.owned hpad
        (by omega) ho
      obtain ⟨r, rfl⟩ := Nat.exists_eq_add_of_le hle
      rw [Nat.add_sub_cancel_left] at hacc' hpad'
      rw [slots_append, ← Finset.union_assoc, ← Nat.add_assoc]
      exact ⟨hacc.trans hacc', hpad'⟩

end Xv6.Fs
