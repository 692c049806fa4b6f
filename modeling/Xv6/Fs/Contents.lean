import Xv6.Fs.Blocks

namespace Xv6.Fs
open Lib Function
set_option autoImplicit true

variable {s s₁ s' : St} {ip ip₁ ip' jp : Inode} {f : Nat → Option Inode} {i j k l a b n bn : Nat}

/-- Inode `i` may have got new blocks, and nothing else has changed. -/
structure Grows (s s' : St) (f : Nat → Option Inode) (i : Nat) (ip ip' : Inode) : Prop where
  guarded : Guarded s' (update f i (some ip'))
  sb : s'.sb = s.sb
  icache : s'.icache = s.icache
  fields : ip' = { ip with addrs := ip'.addrs }
  mine : ∀ l, slotAddr s.blocks ip l ≠ 0 → slotAddr s'.blocks ip' l = slotAddr s.blocks ip l
  others : ∀ j jp, j ≠ i → f j = some jp → ∀ l, slotAddr s'.blocks jp l = slotAddr s.blocks jp l
  data : ∀ j jp, f j = some jp → ∀ l, l ≠ nDirect → slotAddr s.blocks jp l ≠ 0 →
    s'.blocks (slotAddr s.blocks jp l) = s.blocks (slotAddr s.blocks jp l)
  inodes : ∀ j, j < s.sb.ninodes → s'.blocks (s.sb.iblock j) = s.blocks (s.sb.iblock j)

theorem Grows.refl (h : Guarded s f) (hi : f i = some ip) : Grows s s f i ip ip := by
  have hself : update f i (some ip) = f := by
    rw [← hi]
    exact update_eq_self ..
  exact ⟨by rwa [hself], rfl, rfl, rfl, fun _ _ => rfl, fun _ _ _ _ _ => rfl,
    fun _ _ _ _ _ _ => rfl, fun _ _ => rfl⟩

theorem Grows.trans (h : Grows s s₁ f i ip ip₁) (hi : f i = some ip)
    (h' : Grows s₁ s' (update f i (some ip₁)) i ip₁ ip') : Grows s s' f i ip ip' := by
  have hother (j : Nat) (jp : Inode) (hji : j ≠ i) (hj : f j = some jp) :
      update f i (some ip₁) j = some jp := by
    rw [update_of_ne hji, hj]
  constructor
  · have hg := h'.guarded
    rwa [update_idem] at hg
  · exact h'.sb.trans h.sb
  · exact h'.icache.trans h.icache
  · rw [h'.fields, h.fields]
  · intro l hl
    rw [h'.mine l (by rwa [h.mine l hl]), h.mine l hl]
  · intro j jp hji hj l
    rw [h'.others j jp hji (hother j jp hji hj), h.others j jp hji hj]
  · intro j jp hj l hl hz
    rw [← h.data j jp hj l hl hz]
    by_cases hji : j = i
    · subst hji
      cases hi.symm.trans hj
      have hs := h.mine l hz
      have hd := h'.data j ip₁ (update_self ..) l hl (by rwa [hs])
      rwa [hs] at hd
    · have hs := h.others j jp hji hj l
      have hd := h'.data j jp (hother j jp hji hj) l hl (by rwa [hs])
      rwa [hs] at hd
  · intro j hj
    have hd := h'.inodes j (by rwa [h.sb])
    rw [h.sb] at hd
    exact hd.trans (h.inodes j hj)

theorem Alloc.inodes (ha : Alloc s s' b) (hok : s.sb.Ok) (hd : InData s.sb b)
    (hj : j < s.sb.ninodes) : s'.blocks (s.sb.iblock j) = s.blocks (s.sb.iblock j) := by
  apply ha.frame
  · exact hok.iblock_ne_data hj hd
  · exact hok.iblock_ne_bblock hj b

theorem Alloc.data (ha : Alloc s s' b) (h : Guarded s f) (hd : InData s.sb b) (hj : f j = some jp)
    (hz : slotAddr s.blocks jp l ≠ 0) :
    s'.blocks (slotAddr s.blocks jp l) = s.blocks (slotAddr s.blocks jp l) := by
  apply ha.frame
  · exact h.ne_of_free hj ha.free (h.layout.pos_of_data hd)
  · exact (h.layout.bblock_ne_data ha.lt (h.inData hj hz)).symm

theorem addrOf_grows (h : Guarded s f) (hi : f i = some ip) (k : Fin (nDirect + 1))
    (ho : Fs.addrOf s ip k = .ok (s', ip', a)) :
    Grows s s' f i ip ip' ∧ ip'.addrs k = a ∧ a ≠ 0 := by
  rw [Fs.addrOf] at ho
  split at ho
  · next hz =>
    obtain ⟨⟨s₁, b⟩, hb, he⟩ := bind_ok ho
    cases he
    obtain ⟨ha, hd⟩ := alloc_of_balloc h.layout h.metadata hb
    have hself := slotAddr_update ha h hi hd k hz
    have hothers (j : Nat) (jp : Inode) (_ : j ≠ i) (hj : f j = some jp) (l : Nat) :
        slotAddr s'.blocks jp l = slotAddr s.blocks jp l := h.slotAddr_alloc hj ha hd
    refine ⟨⟨?_, ha.sb, ha.icache, rfl, ?_, hothers, ?_, ?_⟩, update_self ..,
      h.layout.pos_of_data hd⟩
    · exact h.grow hi ha hd ha.sb (fun _ _ => rfl) hself hothers
    · intro l hl
      rw [hself, if_neg]
      rintro rfl
      rw [slotAddr, dif_pos k.isLt] at hl
      exact hl hz
    · exact fun j jp hj l _ hl => ha.data h hd hj hl
    · exact fun j hj => ha.inodes h.layout hd hj
  · next hz =>
    cases ho
    exact ⟨.refl h hi, rfl, hz⟩

theorem allocEntry_grows (h : Guarded s f) (hi : f i = some ip) (ho : balloc s = .ok (s₁, b))
    (hz : ip.addrs (Fin.last nDirect) ≠ 0) (hbn : ¬bn < nDirect) (hlt : bn - nDirect < nIndirect)
    (he : slotAddr s.blocks ip (slot bn) = 0)
    (hs : s' = s₁.setBlock (ip.addrs (Fin.last nDirect))
      (putWord (s₁.blocks (ip.addrs (Fin.last nDirect))) (bn - nDirect) b)) :
    Grows s s' f i ip ip ∧ slotAddr s'.blocks ip (slot bn) = b ∧ b ≠ 0 := by
  obtain ⟨ha, hd⟩ := alloc_of_balloc h.layout h.metadata ho
  have hlast := h.last_inData hi hz
  have hb : b < 2 ^ 32 := by
    have hlt := Nat.lt_trans ha.lt h.layout.size_lt
    omega
  have hsb : s'.sb = s.sb := by
    rw [hs]
    exact ha.sb
  have hcache : s'.icache = s.icache := by
    rw [hs]
    exact ha.icache
  have hbit (c : Nat) (hc : c < s.sb.size) : s'.bit c = s₁.bit c := by
    rw [hs]
    apply bit_setBlock_data <;> rw [ha.sb]
    · exact h.layout
    · exact hlast
    · exact hc
  have hframe (n : Nat) (hn : n ≠ ip.addrs (Fin.last nDirect)) : s'.blocks n = s₁.blocks n := by
    rw [hs]
    exact update_of_ne hn _ _
  have hstored : s'.blocks (ip.addrs (Fin.last nDirect)) =
      putWord (s.blocks (ip.addrs (Fin.last nDirect))) (bn - nDirect) b := by
    rw [hs, ← ha.blocks_last h hi hd hz]
    exact update_self ..
  have hself := slotAddr_putWord ip hz hstored hbn hlt hb
  have hothers (j : Nat) (jp : Inode) (hji : j ≠ i) (hj : f j = some jp) (l : Nat) :
      slotAddr s'.blocks jp l = slotAddr s.blocks jp l := by
    apply slotAddr_congr
    intro hjz
    rw [hframe _ (h.last_ne hi hj hji hjz), ha.blocks_last h hj hd hjz]
  refine ⟨⟨?_, hsb, hcache, rfl, ?_, hothers, ?_, ?_⟩, ?_, h.layout.pos_of_data hd⟩
  · exact h.grow hi ha hd hsb hbit hself hothers
  · intro l hl
    rw [hself, if_neg]
    rintro rfl
    exact hl he
  · intro j jp hj l hl hjz
    rw [hframe, ha.data h hd hj hjz]
    rw [← slotAddr_last s.blocks ip]
    intro heq
    exact hl (h.slot_inj hj hi hjz heq).2
  · intro j hj
    rw [hframe, ha.inodes h.layout hd hj]
    exact h.layout.iblock_ne_data hj hlast
  · rw [hself, if_pos rfl]

theorem bmap_grows (h : Guarded s f) (hi : f i = some ip) (ho : Fs.bmap s ip bn = .ok (s', ip', a)) :
    Grows s s' f i ip ip' ∧ slotAddr s'.blocks ip' (slot bn) = a ∧ a ≠ 0 := by
  rw [Fs.bmap] at ho
  split at ho
  · next hbn =>
    obtain ⟨hg, ha, hz⟩ := addrOf_grows h hi _ ho
    exact ⟨hg, by rw [slotAddr_direct _ _ hbn, ha], hz⟩
  · next hbn =>
    obtain ⟨hlt, ho⟩ := if_ok ho
    obtain ⟨⟨s₁, ip₁, addr⟩, h₁, ho⟩ := bind_ok ho
    obtain ⟨hg, rfl, hz⟩ := addrOf_grows h hi _ h₁
    have hslot := slotAddr_entry s₁.blocks ip₁ hbn hlt hz
    simp only at ho
    split at ho
    · next he =>
      obtain ⟨⟨s₂, b⟩, h₂, heq⟩ := bind_ok ho
      cases heq
      obtain ⟨hg', ha, hb⟩ := allocEntry_grows hg.guarded (update_self ..) h₂ hz hbn hlt
        (by rw [hslot, he]) rfl
      exact ⟨hg.trans hi hg', ha, hb⟩
    · next he =>
      cases ho
      exact ⟨hg, hslot, he⟩

theorem last_ne_zero (hd : ¬bn < nDirect) (hz : slotAddr blocks ip (slot bn) ≠ 0) :
    ip.addrs (Fin.last nDirect) ≠ 0 := by
  intro hl
  apply hz
  have h₁ : ¬bn + 1 < nDirect + 1 := by omega
  rw [slot, if_neg hd, slotAddr, dif_neg h₁, if_pos (.inl hl)]

theorem bmap_present (hbn : bn < maxFile) (hz : slotAddr s.blocks ip (slot bn) ≠ 0) :
    Fs.bmap s ip bn = .ok (s, ip, slotAddr s.blocks ip (slot bn)) := by
  have haddr (k : Fin (nDirect + 1)) (hk : ip.addrs k ≠ 0) :
      addrOf s ip k = .ok (s, ip, ip.addrs k) := by
    rw [addrOf, if_neg hk]
  rw [Fs.bmap]
  split
  · next hd =>
    rw [slotAddr_direct _ _ hd] at hz ⊢
    exact haddr _ hz
  · next hd =>
    have hlt : bn - nDirect < nIndirect := by
      simp only [maxFile] at hbn
      omega
    have hlast := last_ne_zero hd hz
    rw [slotAddr_entry _ _ hd hlt hlast] at hz ⊢
    rw [if_pos hlt, haddr _ hlast, ok_bind]
    dsimp only
    rw [if_neg hz]

def fileByte (blocks : Nat → Block) (ip : Inode) (k : Nat) : UInt8 :=
  byteAt (blocks (slotAddr blocks ip (slot (k / bSize)))) (k % bSize)

def Present (blocks : Nat → Block) (ip : Inode) (k : Nat) : Prop :=
  slotAddr blocks ip (slot (k / bSize)) ≠ 0

theorem Grows.byte (h : Grows s s' f i ip ip') (hi : f i = some ip)
    (hp : Present s.blocks ip k) : fileByte s'.blocks ip' k = fileByte s.blocks ip k := by
  rw [fileByte, fileByte, h.mine _ hp, h.data i ip hi _ (slot_ne_last _) hp]

theorem Grows.byte_other (h : Grows s s' f i ip ip') (hji : j ≠ i) (hj : f j = some jp)
    (hp : Present s.blocks jp k) : fileByte s'.blocks jp k = fileByte s.blocks jp k := by
  rw [fileByte, fileByte, h.others j jp hji hj, h.data j jp hj _ (slot_ne_last _) hp]

/-- The bytes from `off` to `off + n` are `src`; else only new blocks have changed. -/
structure Fills (s s' : St) (f : Nat → Option Inode) (i : Nat) (ip ip' : Inode)
    (off n : Nat) (src : Nat → UInt8) : Prop where
  guarded : Guarded s' (update f i (some ip'))
  sb : s'.sb = s.sb
  icache : s'.icache = s.icache
  fields : ip' = { ip with addrs := ip'.addrs }
  inodes : ∀ j, j < s.sb.ninodes → s'.blocks (s.sb.iblock j) = s.blocks (s.sb.iblock j)
  mine : ∀ l, slotAddr s.blocks ip l ≠ 0 → slotAddr s'.blocks ip' l = slotAddr s.blocks ip l
  others : ∀ j jp, j ≠ i → f j = some jp → ∀ l, slotAddr s'.blocks jp l = slotAddr s.blocks jp l
  filled : ∀ k, off ≤ k → k < off + n →
    Present s'.blocks ip' k ∧ fileByte s'.blocks ip' k = src (k - off)
  kept : ∀ k, k < off ∨ off + n ≤ k → Present s.blocks ip k →
    fileByte s'.blocks ip' k = fileByte s.blocks ip k
  foreign : ∀ j jp, j ≠ i → f j = some jp → ∀ k, Present s.blocks jp k →
    fileByte s'.blocks jp k = fileByte s.blocks jp k

theorem Fills.nil (h : Guarded s f) (hi : f i = some ip) (off : Nat) (src : Nat → UInt8) :
    Fills s s f i ip ip off 0 src := by
  have hg := Grows.refl h hi
  exact ⟨hg.guarded, rfl, rfl, rfl, fun _ _ => rfl, fun _ _ => rfl, fun _ _ _ _ _ => rfl,
    fun k h₁ h₂ => by omega, fun _ _ _ => rfl, fun _ _ _ _ _ _ => rfl⟩

theorem Fills.present (h : Fills s s' f i ip ip' off n src) (hp : Present s.blocks ip k) :
    Present s'.blocks ip' k := by
  rw [Present, h.mine _ hp]
  exact hp

theorem Fills.append (h : Fills s s₁ f i ip ip₁ off m src)
    (h' : Fills s₁ s' (update f i (some ip₁)) i ip₁ ip' (off + m) n fun k => src (m + k)) :
    Fills s s' f i ip ip' off (m + n) src := by
  have hother (j : Nat) (jp : Inode) (hji : j ≠ i) (hj : f j = some jp) :
      update f i (some ip₁) j = some jp := by
    rw [update_of_ne hji, hj]
  constructor
  · have hg := h'.guarded
    rwa [update_idem] at hg
  · exact h'.sb.trans h.sb
  · exact h'.icache.trans h.icache
  · rw [h'.fields, h.fields]
  · intro j hj
    have hd := h'.inodes j (by rwa [h.sb])
    rw [h.sb] at hd
    exact hd.trans (h.inodes j hj)
  · intro l hl
    rw [h'.mine l (by rwa [h.mine l hl]), h.mine l hl]
  · intro j jp hji hj l
    rw [h'.others j jp hji (hother j jp hji hj), h.others j jp hji hj]
  · intro k h₁ h₂
    by_cases hk : k < off + m
    · obtain ⟨hp, hb⟩ := h.filled k h₁ hk
      exact ⟨h'.present hp, (h'.kept k (.inl hk) hp).trans hb⟩
    · obtain ⟨hp, hb⟩ := h'.filled k (by omega) (by omega)
      refine ⟨hp, hb.trans (congrArg src ?_)⟩
      omega
  · intro k hk hp
    rw [h'.kept k (by omega) (h.present hp), h.kept k (by omega) hp]
  · intro j jp hji hj k hp
    have hp₁ : Present s₁.blocks jp k := by
      rw [Present, h.others j jp hji hj]
      exact hp
    rw [h'.foreign j jp hji (hother j jp hji hj) k hp₁, h.foreign j jp hji hj k hp]

theorem Guarded.congr (h : Guarded s f) (hsb : s'.sb = s.sb)
    (hbit : ∀ c, c < s.sb.size → s'.bit c = s.bit c)
    (ha : ∀ j jp, f j = some jp → ∀ l, slotAddr s'.blocks jp l = slotAddr s.blocks jp l) :
    Guarded s' f := by
  constructor
  · rw [hsb]
    exact h.layout
  · rw [hsb, own_congr ha]
    apply h.holds.congr
    intro c hc hu
    rwa [hbit c hc.2]
  · rw [hsb]
    intro c hc hlt
    rw [hbit c hlt]
    exact h.metadata c hc hlt

theorem byteAt_memmove (blk : Block) (hk : k < bSize) :
    byteAt (memmove blk o m src) k = if o ≤ k ∧ k < o + m then src (k - o) else byteAt blk k := by
  simp only [byteAt, hk, ↓reduceDIte, memmove]

theorem round_fills (h : Guarded s f) (hi : f i = some ip)
    (hb : Fs.bmap s ip (off / bSize) = .ok (s₁, ip₁, a)) (hm : m ≤ bSize - off % bSize)
    (hs : s' = s₁.setBlock a (memmove (s₁.blocks a) (off % bSize) m src)) :
    Fills s s' f i ip ip₁ off m src := by
  obtain ⟨hg, ha, hz⟩ := bmap_grows h hi hb
  have hi₁ : update f i (some ip₁) i = some ip₁ := update_self ..
  have hd : InData s₁.sb a := by
    rw [← ha] at hz ⊢
    exact hg.guarded.inData hi₁ hz
  have hslot (j : Nat) (jp : Inode) (hj : update f i (some ip₁) j = some jp) (l : Nat) :
      slotAddr s'.blocks jp l = slotAddr s₁.blocks jp l := by
    rw [hs]
    exact hg.guarded.slotAddr_setBlock hi₁ ha hj _
  have hother (j : Nat) (jp : Inode) (hji : j ≠ i) (hj : f j = some jp) :
      update f i (some ip₁) j = some jp := by
    rw [update_of_ne hji, hj]
  have hframe (n : Nat) (hn : n ≠ a) : s'.blocks n = s₁.blocks n := by
    rw [hs]
    exact update_of_ne hn _ _
  have hstored : s'.blocks a = memmove (s₁.blocks a) (off % bSize) m src := by
    rw [hs]
    exact update_self ..
  have hbyte (k : Nat) (hk : k / bSize = off / bSize) : fileByte s'.blocks ip₁ k =
      if off % bSize ≤ k % bSize ∧ k % bSize < off % bSize + m then src (k % bSize - off % bSize)
      else byteAt (s₁.blocks a) (k % bSize) := by
    rw [fileByte, hslot i ip₁ hi₁, hk, ha, hstored, byteAt_memmove _ (Nat.mod_lt _ (by decide))]
  have hmine (l : Nat) (hl : slotAddr s.blocks ip l ≠ 0) :
      slotAddr s'.blocks ip₁ l = slotAddr s.blocks ip l := by
    rw [hslot i ip₁ hi₁, hg.mine l hl]
  have hothers (j : Nat) (jp : Inode) (hji : j ≠ i) (hj : f j = some jp) (l : Nat) :
      slotAddr s'.blocks jp l = slotAddr s.blocks jp l := by
    rw [hslot j jp (hother j jp hji hj), hg.others j jp hji hj]
  constructor
  · apply hg.guarded.congr _ _ hslot
    · rw [hs]
      rfl
    · intro c hc
      rw [hs]
      exact bit_setBlock_data hg.guarded.layout hd _ hc
  · rw [hs]
    exact hg.sb
  · rw [hs]
    exact hg.icache
  · exact hg.fields
  · intro j hj
    rw [hframe, hg.inodes j hj]
    rw [← hg.sb] at hj ⊢
    exact hg.guarded.layout.iblock_ne_data hj hd
  · exact hmine
  · exact hothers
  · intro k h₁ h₂
    have hk : k / bSize = off / bSize := by
      simp only [bSize] at hm ⊢
      omega
    have hin : off % bSize ≤ k % bSize ∧ k % bSize < off % bSize + m := by
      simp only [bSize] at hm hk ⊢
      omega
    constructor
    · rw [Present, hslot i ip₁ hi₁, hk, ha]
      exact hz
    · rw [hbyte k hk, if_pos hin]
      congr 1
      simp only [bSize] at hk ⊢
      omega
  · intro k hout hp
    rw [← hg.byte hi hp]
    by_cases hk : k / bSize = off / bSize
    · have hnin : ¬(off % bSize ≤ k % bSize ∧ k % bSize < off % bSize + m) := by
        simp only [bSize] at hk ⊢
        omega
      rw [hbyte k hk, if_neg hnin, fileByte, hk, ha]
    · have hp₁ : slotAddr s₁.blocks ip₁ (slot (k / bSize)) ≠ 0 := by
        rw [hg.mine _ hp]
        exact hp
      rw [fileByte, fileByte, hslot i ip₁ hi₁, hframe]
      rw [← ha]
      intro he
      exact hk (slot_inj (hg.guarded.slot_inj hi₁ hi₁ hp₁ he).2)
  · intro j jp hji hj k hp
    have hj₁ := hother j jp hji hj
    have hp₁ : slotAddr s₁.blocks jp (slot (k / bSize)) ≠ 0 := by
      rw [hg.others j jp hji hj]
      exact hp
    rw [← hg.byte_other hji hj hp, fileByte, fileByte, hslot j jp hj₁, hframe]
    rw [← ha]
    intro he
    exact hji (hg.guarded.slot_inj hj₁ hi₁ hp₁ he).1

theorem writeLoop_fills (h : Guarded s f) (hi : f i = some ip) (hn : n ≤ fuel)
    (ho : Fs.writeLoop fuel s ip src off n = .ok (s', ip')) :
    Fills s s' f i ip ip' off n src := by
  induction fuel generalizing s f ip src off n with
  | zero =>
    obtain rfl := Nat.le_zero.1 hn
    cases ho
    exact .nil h hi off src
  | succ fuel ih =>
    rw [Fs.writeLoop] at ho
    split at ho
    · next hz =>
      cases ho
      rw [hz]
      exact .nil h hi off src
    · next hz =>
      obtain ⟨⟨s₁, ip₁, a⟩, hb, ho⟩ := bind_ok ho
      have hround : Fills s _ f i ip ip₁ off _ src := round_fills h hi hb
        (Nat.min_le_right n (bSize - off % bSize)) rfl
      have hrest := ih hround.guarded (update_self ..) (by simp only [bSize]; omega) ho
      have hfill := hround.append hrest
      rwa [Nat.add_sub_cancel' (Nat.min_le_left _ _)] at hfill

theorem readLoop_present (hn : n ≤ fuel) (hp : ∀ k, off ≤ k → k < off + n → Present s.blocks ip k)
    (hmax : off + n ≤ maxFile * bSize) : Fs.readLoop fuel s ip off n =
      .ok (s, ip, (List.range n).map fun k => fileByte s.blocks ip (off + k)) := by
  induction fuel generalizing off n with
  | zero =>
    obtain rfl := Nat.le_zero.1 hn
    rfl
  | succ fuel ih =>
    rw [Fs.readLoop]
    split
    · next hz =>
      rw [hz]
      rfl
    · next hz =>
      have hbn : off / bSize < maxFile := by
        simp only [maxFile, nDirect, nIndirect, bSize] at hmax ⊢
        omega
      have hle : min n (bSize - off % bSize) ≤ bSize - off % bSize := Nat.min_le_right _ _
      have hpos : 0 < min n (bSize - off % bSize) := by
        simp only [bSize]
        omega
      have hm : min n (bSize - off % bSize) ≤ n := Nat.min_le_left _ _
      rw [bmap_present hbn (hp off (Nat.le_refl _) (by omega)), ok_bind]
      dsimp only
      generalize min n (bSize - off % bSize) = m at *
      rw [ih (by omega) (fun k h₁ h₂ => hp k (by omega) (by omega)) (by omega), ok_bind]
      dsimp only
      obtain ⟨r, rfl⟩ := Nat.exists_eq_add_of_le hm
      rw [Nat.add_sub_cancel_left, List.range_add, List.map_append, List.map_map]
      have hhead : (List.range m).map (fun k => byteAt (s.blocks (slotAddr s.blocks ip
          (slot (off / bSize)))) (off % bSize + k)) =
          (List.range m).map fun k => fileByte s.blocks ip (off + k) := by
        apply List.map_congr_left
        intro k hk
        have hk := List.mem_range.1 hk
        have hdiv : (off + k) / bSize = off / bSize := by
          simp only [bSize] at hle ⊢
          omega
        have hmod : (off + k) % bSize = off % bSize + k := by
          simp only [bSize] at hle ⊢
          omega
        rw [fileByte, hdiv, hmod]
      have htail (k : Nat) : fileByte s.blocks ip (off + m + k) =
          ((fun k => fileByte s.blocks ip (off + k)) ∘ fun k => m + k) k := by
        rw [comp_apply, Nat.add_assoc]
      rw [hhead, List.map_congr_left fun k _ => htail k]

def St.inodes (s : St) (i : Nat) : Option Inode :=
  match s.icache i with
  | some ip => some ip
  | none => s.allocated i

/-- Each block below the size of an inode in use is allocated and marked, and no two are the
same. -/
structure Intact (s : St) : Prop where
  guarded : Guarded s s.inodes
  inum : ∀ i ip, s.inodes i = some ip → i < s.sb.ninodes
  covered : ∀ i ip, s.inodes i = some ip → ∀ k, k < ip.size → Present s.blocks ip k

def content (s : St) (ip : Inode) : List UInt8 :=
  (List.range ip.size).map (fileByte s.blocks ip)

/-- A byte string overwritten, and extended, with `new` at `off`. -/
def overwrite (old : List UInt8) (off : Nat) (new : List UInt8) : List UInt8 :=
  old.take off ++ new ++ old.drop (off + new.length)

theorem Present.lt (h : Present blocks ip k) : k < maxFile * bSize := by
  by_contra hn
  apply h
  have hd : ¬k / bSize < nDirect := by
    simp only [maxFile, nDirect, nIndirect, bSize] at hn ⊢
    omega
  apply slotAddr_of_le
  rw [slot, if_neg hd]
  simp only [maxFile, nDirect, nIndirect, bSize] at hn ⊢
  omega

theorem Intact.size_le (h : Intact s) (hi : s.inodes i = some ip) : ip.size ≤ maxFile * bSize := by
  by_contra hn
  have hp := h.covered i ip hi (maxFile * bSize) (Nat.lt_of_not_le hn)
  exact Nat.lt_irrefl _ hp.lt

theorem getElem?_content (s : St) (ip : Inode) (k : Nat) :
    (content s ip)[k]? = if k < ip.size then some (fileByte s.blocks ip k) else none := by
  rw [content, List.getElem?_map]
  split
  · next hk => rw [List.getElem?_range hk, Option.map_some]
  · next hk => rw [List.getElem?_eq_none (by simpa using hk), Option.map_none]

theorem length_content (s : St) (ip : Inode) : (content s ip).length = ip.size := by
  rw [content, List.length_map, List.length_range]

theorem take_drop_content (s : St) (hle : off ≤ ip.size) (n : Nat) :
    ((content s ip).drop off).take n =
      (List.range (min n (ip.size - off))).map fun k => fileByte s.blocks ip (off + k) := by
  apply List.ext_getElem?
  intro k
  rw [List.getElem?_take, List.getElem?_map]
  by_cases hk : k < min n (ip.size - off)
  · rw [if_pos (by omega), List.getElem?_drop, getElem?_content, if_pos (by omega),
      List.getElem?_range hk, Option.map_some]
  · have hnone : (List.range (min n (ip.size - off)))[k]? = none :=
      List.getElem?_eq_none (by rw [List.length_range]; omega)
    rw [hnone, Option.map_none]
    split
    · rw [List.getElem?_drop, getElem?_content, if_neg (by omega)]
    · rfl

/-- `readi` of a file whose blocks are there reads its bytes. -/
theorem readi_covered (hcov : ∀ k, k < ip.size → Present s.blocks ip k)
    (hsize : ip.size ≤ maxFile * bSize) (ht : ip.type ≠ tDev) (off n : UInt32) :
    Fs.readi devsw s ip off n =
      if ip.size < off.toNat ∨ off + n < off then .ok (s, ip, [], -1)
      else .ok (s, ip, ((content s ip).drop off.toNat).take n.toNat,
        (((content s ip).drop off.toNat).take n.toNat).length) := by
  rw [Fs.readi, if_neg ht]
  split
  · rfl
  · next hov =>
    have hle := readi_count_le hov
    rw [not_or] at hov
    have hcnt : (if ip.size < (off + n).toNat then ip.size - off.toNat else n.toNat) =
        min n.toNat (ip.size - off.toNat) := by
      rw [toNat_add_of_le hov.2]
      have hoff := Nat.le_of_not_lt hov.1
      split <;> omega
    rw [hcnt] at hle ⊢
    dsimp only
    rw [readLoop_present (Nat.le_refl _) (fun k _ hk => hcov k (by omega))
      (Nat.le_trans hle hsize), ok_bind, take_drop_content s (Nat.le_of_not_lt hov.1),
      List.length_map, List.length_range]

theorem readi_content (h : Intact s) (hi : s.inodes i = some ip) (ht : ip.type ≠ tDev)
    (off n : UInt32) : Fs.readi devsw s ip off n =
      if ip.size < off.toNat ∨ off + n < off then .ok (s, ip, [], -1)
      else .ok (s, ip, ((content s ip).drop off.toNat).take n.toNat,
        (((content s ip).drop off.toNat).take n.toNat).length) :=
  readi_covered (h.covered i ip hi) (h.size_le hi) ht off n

theorem getElem?_overwrite (h : off ≤ old.length) (new : List UInt8) (k : Nat) :
    (overwrite old off new)[k]? =
      if off ≤ k ∧ k < off + new.length then new[k - off]? else old[k]? := by
  have hlen : (old.take off).length = off := List.length_take_of_le h
  rw [overwrite]
  by_cases hk : k < off + new.length
  · rw [List.getElem?_append_left (by rw [List.length_append, hlen]; exact hk)]
    by_cases ho : off ≤ k
    · rw [if_pos ⟨ho, hk⟩, List.getElem?_append_right (by rwa [hlen]), hlen]
    · rw [if_neg (by omega), List.getElem?_append_left (by rw [hlen]; omega),
        List.getElem?_take_of_lt (by omega)]
  · rw [if_neg (by omega), List.getElem?_append_right (by rw [List.length_append, hlen]; omega),
      List.length_append, hlen, List.getElem?_drop, Nat.add_sub_cancel' (by omega)]

theorem Fills.inodes_eq (hf : Fills s s₁ s.inodes i ip ip₁ off n src) (hs : s' = s₁ ∨ s' = iupdate s₁ i ip') :
    (s'.cache i ip').inodes = update s.inodes i (some ip') := by
  funext j
  by_cases hji : j = i
  · subst hji
    simp only [St.inodes, St.cache, update_self]
  · have hcache : s'.icache = s.icache := by
      rcases hs with rfl | rfl
      · exact hf.icache
      · exact hf.icache
    have hall : (s'.cache i ip').allocated j = s.allocated j := by
      rw [← congrFun (allocated_congr hf.sb hf.inodes) j]
      rcases hs with rfl | rfl
      · rfl
      · show (iupdate s₁ i ip').allocated j = s₁.allocated j
        rw [St.allocated, St.allocated, dinode_iupdate_ne hji]
        rfl
    simp only [St.inodes, hall, update_of_ne hji]
    simp only [St.cache, update_of_ne hji, hcache]

theorem Guarded.iupdate_byte (h : Guarded s f) (hi : i < s.sb.ninodes) (hj : f j = some jp)
    (hp : Present s.blocks jp k) :
    Present (iupdate s i ip).blocks jp k ∧
      fileByte (iupdate s i ip).blocks jp k = fileByte s.blocks jp k := by
  have hslot : slotAddr (Fs.iupdate s i ip).blocks jp (slot (k / bSize)) = _ :=
    h.slotAddr_iupdate hi hj _
  have hne := h.layout.iblock_ne_data hi (h.inData hj hp)
  rw [Present, fileByte, fileByte, hslot]
  refine ⟨hp, ?_⟩
  simp only [iupdate, St.setBlock, update_of_ne hne.symm]

theorem Guarded.iupdate (h : Guarded s f) (hi : i < s.sb.ninodes) :
    Guarded (Fs.iupdate s i ip) f := by
  apply h.congr
  · rfl
  · exact fun c hc => h.layout.bit_iupdate hi hc
  · exact fun j jp hj l => h.slotAddr_iupdate hi hj l

structure Written (s s' : St) (i : Nat) (ip ip' : Inode) (off n : Nat) (src : Nat → UInt8) : Prop where
  intact : Intact s'
  cached : s'.icache i = some ip'
  type : ip'.type = ip.type
  size : ip'.size = max ip.size (off + n)
  content : content s' ip' = overwrite (content s ip) off ((List.range n).map src)
  others : ∀ j jp, j ≠ i → s.inodes j = some jp →
    s'.inodes j = some jp ∧ Fs.content s' jp = Fs.content s jp

theorem Fills.written (hf : Fills s s₁ s.inodes i ip ip₁ off n src) (h : Intact s)
    (hi : s.icache i = some ip) (hoff : off ≤ ip.size)
    (hip : ip' = { ip₁ with size := max ip.size (off + n) })
    (hs : s' = s₁ ∨ s' = iupdate s₁ i ip') : Written s (s'.cache i ip') i ip ip' off n src := by
  have hi' : s.inodes i = some ip := by
    rw [St.inodes, hi]
  have hlt : i < s₁.sb.ninodes := by
    rw [hf.sb]
    exact h.inum i ip hi'
  have hself : update s.inodes i (some ip₁) i = some ip₁ := update_self ..
  have hother (j : Nat) (jp : Inode) (hji : j ≠ i) (hj : s.inodes j = some jp) :
      update s.inodes i (some ip₁) j = some jp := by
    rw [update_of_ne hji, hj]
  have haddrs : ip'.addrs = ip₁.addrs := by rw [hip]
  have hinodes := hf.inodes_eq hs
  have hguarded : Guarded s' (update s.inodes i (some ip₁)) := by
    rcases hs with rfl | rfl
    · exact hf.guarded
    · exact hf.guarded.iupdate hlt
  have hbyte (j : Nat) (jp : Inode) (hj : update s.inodes i (some ip₁) j = some jp)
      (k : Nat) (hp : Present s₁.blocks jp k) :
      Present s'.blocks jp k ∧ fileByte s'.blocks jp k = fileByte s₁.blocks jp k := by
    rcases hs with rfl | rfl
    · exact ⟨hp, rfl⟩
    · exact hf.guarded.iupdate_byte hlt hj hp
  have hmine (k : Nat) (hk : k < max ip.size (off + n)) :
      Present s'.blocks ip' k ∧ fileByte s'.blocks ip' k =
        if off ≤ k ∧ k < off + n then src (k - off) else fileByte s.blocks ip k := by
    have hfield : Present s'.blocks ip' k ∧ fileByte s'.blocks ip' k = fileByte s'.blocks ip₁ k ↔
        Present s'.blocks ip₁ k := by
      rw [Present, Present, fileByte, fileByte, slotAddr_setFields _ haddrs]
      exact and_iff_left rfl
    split
    · next hin =>
      obtain ⟨hp, hb⟩ := hf.filled k hin.1 hin.2
      obtain ⟨hp', hb'⟩ := hbyte i ip₁ hself k hp
      obtain ⟨hq, hc⟩ := hfield.2 hp'
      exact ⟨hq, hc.trans (hb'.trans hb)⟩
    · next hin =>
      have hp := h.covered i ip hi' k (by omega)
      obtain ⟨hp', hb'⟩ := hbyte i ip₁ hself k (hf.present hp)
      obtain ⟨hq, hc⟩ := hfield.2 hp'
      exact ⟨hq, hc.trans (hb'.trans (hf.kept k (by omega) hp))⟩
  have hforeign (j : Nat) (jp : Inode) (hji : j ≠ i) (hj : s.inodes j = some jp) (k : Nat)
      (hk : k < jp.size) :
      Present s'.blocks jp k ∧ fileByte s'.blocks jp k = fileByte s.blocks jp k := by
    have hp := h.covered j jp hj k hk
    have hp₁ : Present s₁.blocks jp k := by
      rw [Present, hf.others j jp hji hj]
      exact hp
    obtain ⟨hp', hb'⟩ := hbyte j jp (hother j jp hji hj) k hp₁
    exact ⟨hp', hb'.trans (hf.foreign j jp hji hj k hp)⟩
  have hsize : ip'.size = max ip.size (off + n) := by rw [hip]
  refine ⟨⟨?_, ?_, ?_⟩, update_self .., ?_, hsize, ?_, ?_⟩
  · rw [hinodes]
    refine ⟨hguarded.layout, ?_, hguarded.metadata⟩
    rw [own_setFields _ _ _ haddrs]
    exact hguarded.holds
  · intro j jp hj
    have hsb : (s'.cache i ip').sb = s.sb := by
      rcases hs with rfl | rfl
      · exact hf.sb
      · exact hf.sb
    rw [hsb]
    by_cases hji : j = i
    · rw [hji]
      exact h.inum i ip hi'
    · rw [hinodes, update_of_ne hji] at hj
      exact h.inum j jp hj
  · intro j jp hj k hk
    by_cases hji : j = i
    · subst hji
      rw [hinodes, update_self, Option.some.injEq] at hj
      subst hj
      exact (hmine k (hsize ▸ hk)).1
    · rw [hinodes, update_of_ne hji] at hj
      exact (hforeign j jp hji hj k hk).1
  · rw [hip, hf.fields]
  · apply List.ext_getElem?
    intro k
    rw [getElem?_content, hsize, getElem?_overwrite (by rwa [length_content]), List.length_map,
      List.length_range]
    by_cases hk : k < max ip.size (off + n)
    · rw [if_pos hk]
      refine (congrArg some (hmine k hk).2).trans ?_
      split
      · next hin =>
        rw [List.getElem?_map, List.getElem?_range (by omega), Option.map_some]
      · next hin => rw [getElem?_content, if_pos (by omega)]
    · rw [if_neg hk, if_neg (by omega), getElem?_content, if_neg (by omega)]
  · intro j jp hji hj
    refine ⟨by rw [hinodes, update_of_ne hji, hj], List.map_congr_left fun k hk => ?_⟩
    exact (hforeign j jp hji hj k (List.mem_range.1 hk)).2

theorem writeLoop_fuel (h : n ≤ fuel) (h' : n ≤ fuel') :
    Fs.writeLoop fuel s ip src off n = Fs.writeLoop fuel' s ip src off n := by
  induction fuel generalizing fuel' s ip src off n with
  | zero =>
    obtain rfl := Nat.le_zero.1 h
    cases fuel' <;> rfl
  | succ fuel ih =>
    cases fuel' with
    | zero =>
      obtain rfl := Nat.le_zero.1 h'
      rfl
    | succ fuel' =>
      rw [Fs.writeLoop, Fs.writeLoop]
      split
      · rfl
      · next hz =>
        congr 1
        funext x
        obtain ⟨s₁, ip₁, a⟩ := x
        dsimp only
        apply ih
        · simp only [bSize]
          omega
        · simp only [bSize]
          omega

theorem readLoop_fuel (h : n ≤ fuel) (h' : n ≤ fuel') :
    Fs.readLoop fuel s ip off n = Fs.readLoop fuel' s ip off n := by
  induction fuel generalizing fuel' s ip off n with
  | zero =>
    obtain rfl := Nat.le_zero.1 h
    cases fuel' <;> rfl
  | succ fuel ih =>
    cases fuel' with
    | zero =>
      obtain rfl := Nat.le_zero.1 h'
      rfl
    | succ fuel' =>
      rw [Fs.readLoop, Fs.readLoop]
      split
      · rfl
      · next hz =>
        congr 1
        funext x
        obtain ⟨s₁, ip₁, a⟩ := x
        dsimp only
        rw [ih]
        · simp only [bSize]
          omega
        · simp only [bSize]
          omega

theorem writei_written {off n : UInt32} (h : Intact s) (hi : s.icache i = some ip)
    (ht : ip.type ≠ tDev) (ho : Fs.writei devsw s i ip src off n = .ok (s', ip', r))
    (hov : ¬(ip.size < off.toNat ∨ off + n < off)) (hmax : ¬maxFile * bSize < (off + n).toNat) :
    r = n.toNat ∧ Written s (s'.cache i ip') i ip ip' off.toNat n.toNat src := by
  have hi' : s.inodes i = some ip := by
    rw [St.inodes, hi]
  rw [Fs.writei, if_neg ht, if_neg hov, if_neg hmax] at ho
  obtain ⟨⟨s₁, ip₁⟩, hl, ho⟩ := bind_ok ho
  rw [not_or] at hov
  have hoff := Nat.le_of_not_lt hov.1
  have hf := writeLoop_fills h.guarded hi' (Nat.le_refl _) hl
  have hsize : ip₁.size = ip.size := by rw [hf.fields]
  dsimp only at ho
  rw [toNat_add_of_le hov.2, hsize] at ho
  split at ho
  · next hgrow =>
    cases ho
    refine ⟨rfl, hf.written h hi hoff ?_ (.inr rfl)⟩
    rw [Nat.max_eq_right (Nat.le_of_lt hgrow.2)]
  · next hgrow =>
    cases ho
    refine ⟨rfl, hf.written h hi hoff ?_ (.inl rfl)⟩
    rw [Nat.max_eq_left (by omega), ← hsize]

/-- `writei` refuses what lies beyond the end or the largest size; otherwise, unless blocks run out,
it overwrites the file, which `readi` then reads, and no other. -/
theorem file_contents (h : Intact s) (hi : s.icache i = some ip) (ht : ip.type ≠ tDev)
    (src : Nat → UInt8) (off n : UInt32) :
    (∀ fuel s ip src off n, n ≤ fuel →
      writeLoop fuel s ip src off n = writeLoop n s ip src off n ∧
      readLoop fuel s ip off n = readLoop n s ip off n) ∧
    if ip.size < off.toNat ∨ off + n < off ∨ maxFile * bSize < (off + n).toNat then
      Fs.writei devsw s i ip src off n = .ok (s, ip, -1)
    else Fs.writei devsw s i ip src off n = .error (.panic "balloc: out of blocks") ∨
      ∃ s' ip', Fs.writei devsw s i ip src off n = .ok (s', ip', n.toNat) ∧
        Intact (s'.cache i ip') ∧
        (∀ off' m, Fs.readi devsw (s'.cache i ip') ip' off' m =
          if max ip.size (off.toNat + n.toNat) < off'.toNat ∨ off' + m < off' then
            .ok (s'.cache i ip', ip', [], -1)
          else .ok (s'.cache i ip', ip',
            ((overwrite (content s ip) off.toNat ((List.range n.toNat).map src)).drop
              off'.toNat).take m.toNat,
            (((overwrite (content s ip) off.toNat ((List.range n.toNat).map src)).drop
              off'.toNat).take m.toNat).length)) ∧
        ∀ j jp, j ≠ i → s.inodes j = some jp →
          (s'.cache i ip').inodes j = some jp ∧ content (s'.cache i ip') jp = content s jp := by
  refine ⟨fun fuel s ip src off n hn =>
    ⟨writeLoop_fuel hn (Nat.le_refl n), readLoop_fuel hn (Nat.le_refl n)⟩, ?_⟩
  by_cases hov : ip.size < off.toNat ∨ off + n < off
  · rw [if_pos (hov.imp_right .inl), Fs.writei, if_neg ht, if_pos hov]
  by_cases hmax : maxFile * bSize < (off + n).toNat
  · rw [if_pos (.inr (.inr hmax)), Fs.writei, if_neg ht, if_neg hov, if_pos hmax]
  rw [if_neg]
  · cases ho : Fs.writei devsw s i ip src off n with
    | error e =>
      left
      rw [writei_error ho]
    | ok r =>
      obtain ⟨s', ip', r⟩ := r
      right
      obtain ⟨rfl, hw⟩ := writei_written h hi ht ho hov hmax
      refine ⟨s', ip', rfl, hw.intact, fun off' m => ?_, hw.others⟩
      have hi' : (s'.cache i ip').inodes i = some ip' := by
        rw [St.inodes, hw.cached]
      rw [readi_content hw.intact hi' (by rwa [hw.type]), hw.size, hw.content]
  · rintro (h₁ | h₁ | h₁)
    · exact hov (.inl h₁)
    · exact hov (.inr h₁)
    · exact hmax h₁

theorem WellFormed.inodes_eq (h : WellFormed s) : s.inodes = s.allocated := by
  funext i
  rw [St.inodes]
  split
  · next ip hi => exact (h.cache i ip hi).symm
  · rfl

theorem WellFormed.intact (h : WellFormed s) : Intact s := by
  have hinodes := h.inodes_eq
  constructor
  · rw [hinodes]
    exact h.sound.guarded
  · intro i ip hi
    rw [hinodes] at hi
    exact (allocated_eq_some.1 hi).1
  · intro i ip hi k hk
    rw [hinodes] at hi
    obtain ⟨hshape, hle⟩ := h.shape i ip hi
    simp only [maxFile, nDirect, nIndirect, bSize] at hle
    apply (hshape (k / bSize) ?_).2
    · simp only [blockCount, bSize]
      omega
    · simp only [maxFile, nDirect, nIndirect, bSize]
      omega

theorem file_contents_smallFs : ∃ s ip s' ip', Intact s ∧ s.icache 1 = some ip ∧
    writei (fun _ => none) s 1 ip (fun _ => 7) 0 600 = .ok (s', ip', 600) ∧
    readi (fun _ => none) (s'.cache 1 ip') ip' 512 100 =
      .ok (s'.cache 1 ip', ip', List.replicate 88 7, 88) := by
  obtain ⟨s, hr, hs⟩ := (Option.any_eq_true _ _).1
    (show (runLegal (step fun _ => none) legal smallFs [.ialloc 2, .ilock 1]).any
      (fun s => (s.icache 1).any fun ip => ip.type = 2 ∧ ip.size = 0 ∧
        (writei (fun _ => none) s 1 ip (fun _ => 7) 0 600).toOption.isSome) = true by decide +kernel)
  obtain ⟨ip, hi, hip⟩ := (Option.any_eq_true _ _).1 hs
  obtain ⟨htype, hsize, hok⟩ := of_decide_eq_true hip
  have hexec := exec_of_runLegal _ _ _ _ hr
  have hw : WellFormed s :=
    hexec.invariant wellFormed_smallFs fun _ _ _ hw hl ho => hw.step hl ho
  have hmain := (@file_contents s ip 1 (fun _ => none) hw.intact hi
    (by rw [htype]; decide) (fun _ => 7) 0 600).2
  rw [hsize, if_neg (by decide)] at hmain
  rcases hmain with he | ⟨s', ip', ho, -, hread, -⟩
  · rw [he] at hok
    cases hok
  · have hcontent : content s ip = [] := by
      rw [content, hsize]
      rfl
    have hbytes : ((overwrite [] (0 : UInt32).toNat ((List.range (600 : UInt32).toNat).map
        fun _ => 7)).drop (512 : UInt32).toNat).take (100 : UInt32).toNat =
        List.replicate 88 (7 : UInt8) := by decide +kernel
    refine ⟨s, ip, s', ip', hw.intact, hi, ho, ?_⟩
    rw [hread, hcontent, if_neg (by decide), hbytes, List.length_replicate]
    rfl

end Xv6.Fs
