import Xv6.Fs.Ownership

namespace Xv6.Fs
open Lib Function
set_option autoImplicit true

variable {s s' : St} {ip ip' jp : Inode} {i j k l a b n bn : Nat}

/-- Inode `i` has its first `n` blocks in the copy `ip`, perhaps ahead of the disk. -/
structure Busy (s : St) (i : Nat) (ip : Inode) (n : Nat) : Prop where
  sound : Sound s (update s.allocated i (some ip))
  inum : i < s.sb.ninodes
  mine : Shaped s.blocks ip n
  shape : ∀ j jp, j ≠ i → s.allocated j = some jp →
    Shaped s.blocks jp (blockCount jp.size) ∧ jp.size ≤ maxFile * bSize
  cache : ∀ j jp, j ≠ i → s.icache j = some jp → s.allocated j = some jp

theorem slot_ne_last (bn : Nat) : slot bn ≠ nDirect := by
  simp only [slot]
  split <;> omega

theorem slot_inj (h : slot bn = slot n) : bn = n := by
  simp only [slot] at h
  split at h <;> split at h <;> omega

theorem Busy.mem_self (i : Nat) (ip : Inode) :
    update s.allocated i (some ip) i = some ip :=
  update_self ..

theorem Busy.mem_other (hj : j ≠ i) (h : s.allocated j = some jp) :
    update s.allocated i (some ip) j = some jp := by
  rw [update_of_ne hj, h]

theorem Shaped.congr (h : Shaped blocks ip n)
    (he : ∀ l, slotAddr blocks' ip' l = slotAddr blocks ip l) : Shaped blocks' ip' n := by
  intro bn hbn
  rw [he]
  exact h bn hbn

theorem Shaped.grow (h : Shaped blocks ip n) (hb : b ≠ 0)
    (he : ∀ l, slotAddr blocks' ip' l = if l = slot n then b else slotAddr blocks ip l) :
    Shaped blocks' ip' (n + 1) := by
  intro bn hbn
  rw [he]
  split
  · next hs =>
    have hn := slot_inj hs
    exact ⟨fun _ => by omega, fun _ => hb⟩
  · next hs =>
    rw [h bn hbn]
    have hne : bn ≠ n := by
      rintro rfl
      exact hs rfl
    omega

theorem Shaped.grow_last (h : Shaped blocks ip n)
    (he : ∀ l, slotAddr blocks' ip' l = if l = nDirect then b else slotAddr blocks ip l) :
    Shaped blocks' ip' n := by
  intro bn hbn
  rw [he, if_neg (slot_ne_last bn)]
  exact h bn hbn

theorem Busy.transfer (h : Busy s i ip n) (hsb : s'.sb = s.sb) (hc : s'.icache = s.icache)
    (ha : s'.allocated = s.allocated)
    (hs : Sound s' (update s.allocated i (some ip')))
    (hm : Shaped s'.blocks ip' m)
    (ho : ∀ j jp, j ≠ i → s.allocated j = some jp → ∀ l,
      slotAddr s'.blocks jp l = slotAddr s.blocks jp l) : Busy s' i ip' m := by
  constructor
  · rw [ha]
    exact hs
  · rw [hsb]
    exact h.inum
  · exact hm
  · rw [ha]
    intro j jp hj hjp
    obtain ⟨hsh, hsz⟩ := h.shape j jp hj hjp
    exact ⟨hsh.congr (ho j jp hj hjp), hsz⟩
  · rw [hc, ha]
    exact h.cache

theorem Alloc.allocated (ha : Alloc s s' b) (hok : s.sb.Ok) (hd : InData s.sb b) :
    s'.allocated = s.allocated := by
  apply allocated_congr ha.sb
  intro j hj
  apply ha.frame
  · exact hok.iblock_ne_data hj hd
  · exact hok.iblock_ne_bblock hj b

theorem slotAddr_update (ha : Alloc s s' b) (h : Guarded s f) (hi : f i = some ip)
    (hd : InData s.sb b) (k : Fin (nDirect + 1)) (hz : ip.addrs k = 0) (l : Nat) :
    slotAddr s'.blocks { ip with addrs := update ip.addrs k b } l =
      if l = k.val then b else slotAddr s.blocks ip l := by
  have hold := h.slotAddr_alloc (k := l) hi ha hd
  rw [slotAddr] at hold ⊢
  by_cases hl : l < nDirect + 1
  · simp only [hl, ↓reduceDIte] at hold ⊢
    by_cases hlk : l = k.val
    · subst hlk
      simp only [↓reduceIte, Fin.eta, update_self]
    · rw [update_of_ne (by simpa [Fin.ext_iff] using hlk), if_neg hlk, hold]
  · have hlk : l ≠ k.val := by
      have hk := k.isLt
      omega
    simp only [hl, ↓reduceDIte, hlk, ↓reduceIte] at hold ⊢
    by_cases hk : Fin.last nDirect = k
    · subst hk
      rw [update_self, ← hold, ha.zero]
      simp only [hz, true_or, ↓reduceIte, ite_eq_left_iff]
      intro _
      exact getLE_zero _ _ _
    · rw [update_of_ne hk, hold]

theorem Busy.addrOf (h : Busy s i ip n) (k : Fin (nDirect + 1))
    (ho : Fs.addrOf s ip k = .ok (s', ip', a)) :
    (ip.addrs k ≠ 0 ∧ s' = s ∧ ip' = ip ∧ a = ip.addrs k) ∨
      ip.addrs k = 0 ∧ Alloc s s' a ∧ InData s.sb a ∧
        ip' = { ip with addrs := update ip.addrs k a } := by
  rw [Fs.addrOf] at ho
  split at ho
  · next hz =>
    obtain ⟨⟨s₁, b⟩, hb, he⟩ := bind_ok ho
    cases he
    obtain ⟨hal, hd⟩ := alloc_of_balloc h.sound.layout h.sound.metadata hb
    exact .inr ⟨hz, hal, hd, rfl⟩
  · next hz =>
    cases ho
    exact .inl ⟨hz, rfl, rfl, rfl⟩

theorem slotAddr_direct (blocks : Nat → Block) (ip : Inode) (h : bn < nDirect) :
    slotAddr blocks ip (slot bn) = ip.addrs ⟨bn, Nat.lt_succ_of_lt h⟩ := by
  rw [slot, if_pos h, slotAddr, dif_pos (Nat.lt_succ_of_lt h)]

theorem slotAddr_entry (blocks : Nat → Block) (ip : Inode) (h : ¬bn < nDirect)
    (hlt : bn - nDirect < nIndirect) (hz : ip.addrs (Fin.last nDirect) ≠ 0) :
    slotAddr blocks ip (slot bn) =
      getWord (blocks (ip.addrs (Fin.last nDirect))) (bn - nDirect) := by
  have h₁ : ¬bn + 1 < nDirect + 1 := by omega
  have h₂ : ¬(ip.addrs (Fin.last nDirect) = 0 ∨ nDirect + 1 + nIndirect ≤ bn + 1) := by
    rintro (h₀ | h₀)
    · exact hz h₀
    · omega
  rw [slot, if_neg h, slotAddr, dif_neg h₁, if_neg h₂, Nat.add_sub_add_right]

theorem Busy.alloc (h : Busy s i ip n) (ha : Alloc s s' b) (hd : InData s.sb b)
    (k : Fin (nDirect + 1)) (hz : ip.addrs k = 0)
    (hm : Shaped s'.blocks { ip with addrs := update ip.addrs k b } m) :
    Busy s' i { ip with addrs := update ip.addrs k b } m := by
  have hself := slotAddr_update ha h.sound.guarded (Busy.mem_self i ip) hd k hz
  have hzero : slotAddr s.blocks ip k.val = 0 := by
    rw [slotAddr, dif_pos k.isLt]
    exact hz
  have hothers (j : Nat) (jp : Inode) (_ : j ≠ i)
      (hjp : update s.allocated i (some ip) j = some jp) (l : Nat) :=
    h.sound.guarded.slotAddr_alloc (k := l) hjp ha hd
  have hs := h.sound.grow (Busy.mem_self i ip) ha hd ha.sb (fun _ _ => rfl) hself hothers hzero
  rw [update_idem] at hs
  exact h.transfer ha.sb ha.icache (ha.allocated h.sound.layout hd) hs hm
    fun j jp hj hjp => hothers j jp hj (Busy.mem_other hj hjp)

theorem slotAddr_putWord (ip : Inode) (hz : ip.addrs (Fin.last nDirect) ≠ 0)
    (hblk : blocks' (ip.addrs (Fin.last nDirect)) =
      putWord (blocks (ip.addrs (Fin.last nDirect))) (n - nDirect) b)
    (hn : ¬n < nDirect) (hlt : n - nDirect < nIndirect) (hb : b < 2 ^ 32) (l : Nat) :
    slotAddr blocks' ip l = if l = slot n then b else slotAddr blocks ip l := by
  have hs : slot n = n + 1 := if_neg hn
  simp only [slotAddr, hs]
  by_cases hl : l < nDirect + 1
  · simp only [hl, ↓reduceDIte]
    rw [if_neg (by omega)]
  · simp only [hl, ↓reduceDIte]
    by_cases hm : nDirect + 1 + nIndirect ≤ l
    · simp only [hm, or_true, ↓reduceIte]
      rw [if_neg (by omega)]
    · simp only [hz, hm, or_self, ↓reduceIte, hblk]
      by_cases hln : l = n + 1
      · rw [if_pos hln, hln, Nat.add_sub_add_right, getWord_putWord_same _ _ hb]
        simp only [nIndirect, bSize] at hlt ⊢
        omega
      · rw [if_neg hln, getWord_putWord_ne]
        omega

theorem Alloc.blocks_last (ha : Alloc s s' b) (h : Guarded s f) (hi : f i = some ip)
    (hd : InData s.sb b) (hz : ip.addrs (Fin.last nDirect) ≠ 0) :
    s'.blocks (ip.addrs (Fin.last nDirect)) = s.blocks (ip.addrs (Fin.last nDirect)) := by
  apply ha.frame
  · rw [← slotAddr_last s.blocks ip]
    exact h.ne_of_free hi ha.free (h.layout.pos_of_data hd)
  · exact (h.layout.bblock_ne_data ha.lt (h.last_inData hi hz)).symm

theorem Guarded.last_ne (h : Guarded s f) (hi : f i = some ip) (hj : f j = some jp) (hji : j ≠ i)
    (hz : jp.addrs (Fin.last nDirect) ≠ 0) :
    jp.addrs (Fin.last nDirect) ≠ ip.addrs (Fin.last nDirect) := by
  intro he
  rw [← slotAddr_last s.blocks jp] at he hz
  rw [← slotAddr_last s.blocks ip] at he
  exact hji (h.slot_inj hj hi hz he).1

theorem allocated_setBlock (hok : s.sb.Ok) (hd : InData s.sb a) (blk : Block) :
    (s.setBlock a blk).allocated = s.allocated := by
  have hj (j : Nat) (hj : j < s.sb.ninodes) :
      (s.setBlock a blk).blocks (s.sb.iblock j) = s.blocks (s.sb.iblock j) :=
    update_of_ne (hok.iblock_ne_data hj hd) _ _
  exact allocated_congr rfl hj

theorem bit_setBlock_data (hok : s.sb.Ok) (hd : InData s.sb a) (blk : Block)
    (hc : c < s.sb.size) : (s.setBlock a blk).bit c = s.bit c := by
  apply bit_setBlock
  · intro c hc
    exact hok.bblock_ne_data hc hd
  · exact hc

theorem Busy.allocEntry (h : Busy s i ip n) (ha : Alloc s s₁ b) (hd : InData s.sb b)
    (hz : ip.addrs (Fin.last nDirect) ≠ 0) (hn : ¬n < nDirect) (hlt : n - nDirect < nIndirect) :
    Busy (s₁.setBlock (ip.addrs (Fin.last nDirect))
      (putWord (s₁.blocks (ip.addrs (Fin.last nDirect))) (n - nDirect) b)) i ip (n + 1) := by
  have hok := h.sound.layout
  have hi := Busy.mem_self (s := s) i ip
  have hlast : InData s₁.sb (ip.addrs (Fin.last nDirect)) := by
    rw [ha.sb]
    exact h.sound.guarded.last_inData hi hz
  have hb : b < 2 ^ 32 := by
    have hlt := Nat.lt_trans ha.lt hok.size_lt
    omega
  have hok₁ : s₁.sb.Ok := by rwa [ha.sb]
  have hall := allocated_setBlock hok₁ hlast
    (putWord (s₁.blocks (ip.addrs (Fin.last nDirect))) (n - nDirect) b)
  have hbit (c : Nat) (hc : c < s₁.sb.size) := bit_setBlock_data hok₁ hlast
    (putWord (s₁.blocks (ip.addrs (Fin.last nDirect))) (n - nDirect) b) hc
  generalize hs : s₁.setBlock (ip.addrs (Fin.last nDirect))
    (putWord (s₁.blocks (ip.addrs (Fin.last nDirect))) (n - nDirect) b) = s' at hall hbit ⊢
  have hsb : s'.sb = s.sb := by
    rw [← hs]
    exact ha.sb
  have hself (l : Nat) :
      slotAddr s'.blocks ip l = if l = slot n then b else slotAddr s.blocks ip l := by
    refine slotAddr_putWord ip hz ?_ hn hlt hb l
    rw [← hs, ← ha.blocks_last h.sound.guarded hi hd hz]
    exact update_self ..
  have hothers (j : Nat) (jp : Inode) (hji : j ≠ i)
      (hjp : update s.allocated i (some ip) j = some jp) (l : Nat) :
      slotAddr s'.blocks jp l = slotAddr s.blocks jp l := by
    apply slotAddr_congr
    intro hjz
    rw [← ha.blocks_last h.sound.guarded hjp hd hjz, ← hs]
    exact update_of_ne (h.sound.guarded.last_ne hi hjp hji hjz) _ _
  have hzero : slotAddr s.blocks ip (slot n) = 0 := by
    by_contra hne
    have hlt' : n < maxFile := by
      simp only [maxFile]
      omega
    exact absurd ((h.mine n hlt').1 hne) (Nat.lt_irrefl n)
  have hs' := h.sound.grow hi ha hd hsb (by rwa [← ha.sb]) hself hothers hzero
  rw [update_idem] at hs'
  refine h.transfer hsb ?_ ?_ hs' (h.mine.grow (hok.pos_of_data hd) hself)
    fun j jp hj hjp => hothers j jp hj (Busy.mem_other hj hjp)
  · rw [← hs]
    exact ha.icache
  · rw [hall]
    exact ha.allocated hok hd

theorem Busy.indirect (h : Busy s i ip n)
    (ho : Fs.addrOf s ip (Fin.last nDirect) = .ok (s', ip', a)) :
    Busy s' i ip' n ∧ ip'.addrs (Fin.last nDirect) = a ∧ a ≠ 0 ∧ s'.sb = s.sb ∧
      ip' = { ip with addrs := ip'.addrs } ∧
      (slotAddr s.blocks ip nDirect ≠ 0 → s' = s ∧ ip' = ip) := by
  obtain ⟨hz, rfl, rfl, rfl⟩ | ⟨hz, ha, hd, rfl⟩ := h.addrOf _ ho
  · exact ⟨h, rfl, hz, rfl, rfl, fun _ => ⟨rfl, rfl⟩⟩
  · have hself := slotAddr_update ha h.sound.guarded (Busy.mem_self i ip) hd _ hz
    refine ⟨h.alloc ha hd _ hz (h.mine.grow_last hself), by simp only [update_self],
      h.sound.layout.pos_of_data hd, ha.sb, rfl, ?_⟩
    rw [slotAddr_last]
    exact fun hne => absurd hz hne

/-- `bmap` leaves block `bn` there, and changes nothing if it was before. -/
structure Mapped (s s' : St) (i : Nat) (ip ip' : Inode) (n bn a : Nat) : Prop where
  busy : Busy s' i ip' (max n (bn + 1))
  addr : slotAddr s'.blocks ip' (slot bn) = a
  pos : a ≠ 0
  sb : s'.sb = s.sb
  fields : ip' = { ip with addrs := ip'.addrs }
  same : bn < n → s' = s ∧ ip' = ip

theorem Busy.lt_of_slot (h : Busy s i ip n) (hbn : bn < maxFile)
    (hz : slotAddr s.blocks ip (slot bn) ≠ 0) : max n (bn + 1) = n := by
  have hlt := (h.mine bn hbn).1 hz
  omega

theorem Busy.eq_of_slot (h : Busy s i ip n) (hbn : bn < maxFile) (hle : bn ≤ n)
    (hz : slotAddr s.blocks ip (slot bn) = 0) : bn = n := by
  by_contra hne
  exact (h.mine bn hbn).2 (by omega) hz

theorem Busy.bmap_direct (h : Busy s i ip n) (hle : bn ≤ n) (hbn : bn < nDirect)
    (ho : Fs.addrOf s ip ⟨bn, Nat.lt_succ_of_lt hbn⟩ = .ok (s', ip', a)) :
    Mapped s s' i ip ip' n bn a := by
  have hmax : bn < maxFile := by
    simp only [maxFile]
    omega
  have hslot (blocks : Nat → Block) (ip : Inode) := slotAddr_direct blocks ip hbn
  obtain ⟨hz, rfl, rfl, rfl⟩ | ⟨hz, ha, hd, rfl⟩ := h.addrOf _ ho
  · have hpos := hz
    rw [← hslot s'.blocks] at hz
    refine ⟨?_, hslot _ _, hpos, rfl, rfl, fun _ => ⟨rfl, rfl⟩⟩
    rw [h.lt_of_slot hmax hz]
    exact h
  · have hself := slotAddr_update ha h.sound.guarded (Busy.mem_self i ip) hd _ hz
    have hpos := h.sound.layout.pos_of_data hd
    rw [← hslot s.blocks] at hz
    obtain rfl := h.eq_of_slot hmax hle hz
    have hs : slot bn = bn := if_pos hbn
    refine ⟨?_, ?_, hpos, ha.sb, rfl, fun hlt => absurd hlt (Nat.lt_irrefl bn)⟩
    · rw [Nat.max_eq_right (Nat.le_succ bn)]
      rw [hslot] at hz
      apply h.alloc ha hd _ hz
      apply h.mine.grow hpos
      rwa [hs]
    · rw [hself, if_pos hs]

theorem Busy.bmap (h : Busy s i ip n) (hle : bn ≤ n) (ho : Fs.bmap s ip bn = .ok (s', ip', a)) :
    Mapped s s' i ip ip' n bn a := by
  rw [Fs.bmap] at ho
  split at ho
  · next hbn => exact h.bmap_direct hle hbn ho
  · next hbn =>
    obtain ⟨hlt, ho⟩ := if_ok ho
    have hmax : bn < maxFile := by
      simp only [maxFile]
      omega
    obtain ⟨⟨s₁, ip₁, addr⟩, h₁, ho⟩ := bind_ok ho
    obtain ⟨hb, rfl, hne, hsb, hf, hsame⟩ := h.indirect h₁
    have hslot := slotAddr_entry s₁.blocks ip₁ hbn hlt hne
    have hsame' (hlt' : bn < n) : s₁ = s ∧ ip₁ = ip := by
      apply hsame
      rw [slotAddr_last]
      intro hz
      apply (h.mine bn hmax).2 hlt'
      have h₁ : ¬bn + 1 < nDirect + 1 := by omega
      rw [slot, if_neg hbn, slotAddr, dif_neg h₁, if_pos (.inl hz)]
    simp only at ho
    split at ho
    · next hz =>
      obtain ⟨⟨s₂, b⟩, h₂, he⟩ := bind_ok ho
      cases he
      obtain ⟨hal, hd⟩ := alloc_of_balloc hb.sound.layout hb.sound.metadata h₂
      rw [← hslot] at hz
      obtain rfl := hb.eq_of_slot hmax hle hz
      have hg := hb.allocEntry hal hd hne hbn hlt
      refine ⟨?_, ?_, hb.sound.layout.pos_of_data hd, hal.sb.trans hsb, hf,
        fun hlt => absurd hlt (Nat.lt_irrefl bn)⟩
      · rw [Nat.max_eq_right (Nat.le_succ bn)]
        exact hg
      · rw [slotAddr_entry _ _ hbn hlt hne]
        have hb32 := Nat.lt_trans hal.lt hb.sound.layout.size_lt
        simp only [St.setBlock, update_self]
        apply getWord_putWord_same
        · simp only [nIndirect, bSize] at hlt ⊢
          omega
        · omega
    · next hz =>
      cases ho
      rw [← hslot] at hz
      refine ⟨?_, hslot, by rwa [← hslot], hsb, hf, hsame'⟩
      rw [hb.lt_of_slot hmax hz]
      exact hb

theorem bmap_error (hbn : bn < maxFile) (h : Fs.bmap s ip bn = .error e) :
    e = .panic "balloc: out of blocks" := by
  have haddr (s : St) (ip : Inode) (k : Fin (nDirect + 1)) (h : Fs.addrOf s ip k = .error e) :
      e = .panic "balloc: out of blocks" := by
    rw [Fs.addrOf] at h
    split at h
    · obtain h | ⟨_, _, h⟩ := bind_error h
      · exact balloc_error h
      · cases h
    · cases h
  rw [Fs.bmap] at h
  split at h
  · exact haddr _ _ _ h
  · split at h
    · obtain h | ⟨⟨s₁, ip₁, addr⟩, _, h⟩ := bind_error h
      · exact haddr _ _ _ h
      · simp only at h
        split at h
        · obtain h | ⟨_, _, h⟩ := bind_error h
          · exact balloc_error h
          · cases h
        · cases h
    · next h₁ h₂ =>
      simp only [maxFile] at hbn
      omega

end Xv6.Fs
