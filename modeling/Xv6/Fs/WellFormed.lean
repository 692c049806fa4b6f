import Xv6.Fs.Growth

namespace Xv6.Fs
open Lib Function
set_option autoImplicit true

variable {s s' : St} {ip ip' jp : Inode} {i j k l a b n bn : Nat}

/-- Every inode in use has the blocks of its size, no block is held twice, and the bit map marks
them. A valid copy agrees with the disk. -/
structure WellFormed (s : St) : Prop where
  sound : Sound s s.allocated
  shape : ∀ i ip, s.allocated i = some ip →
    Shaped s.blocks ip (blockCount ip.size) ∧ ip.size ≤ maxFile * bSize
  cache : ∀ i ip, s.icache i = some ip → s.allocated i = some ip

theorem own_congr {f : Nat → Option Inode} (h : ∀ j jp, f j = some jp → ∀ l,
    slotAddr blocks' jp l = slotAddr blocks jp l) : own blocks' f = own blocks f := by
  funext ⟨j, l⟩
  simp only [own]
  split
  · next jp hj => rw [h j jp hj]
  · rfl

theorem Sound.congr (h : Sound s f) (hsb : s'.sb = s.sb)
    (hbit : ∀ c, c < s.sb.size → s'.bit c = s.bit c)
    (ha : ∀ j jp, f j = some jp → ∀ l, slotAddr s'.blocks jp l = slotAddr s.blocks jp l) :
    Sound s' f := by
  constructor
  · rw [hsb]
    exact h.layout
  · rw [hsb, own_congr ha]
    apply h.owns.congr
    intro c hc
    rw [hbit c hc.2]
  · rw [hsb]
    intro c hc hlt
    rw [hbit c hlt]
    exact h.metadata c hc hlt

theorem WellFormed.busy (h : WellFormed s) (hi : s.icache i = some ip) :
    Busy s i ip (blockCount ip.size) := by
  have hip := h.cache i ip hi
  have hself : update s.allocated i (some ip) = s.allocated := by
    rw [← hip]
    exact update_eq_self ..
  constructor
  · rw [hself]
    exact h.sound
  · exact (allocated_eq_some.1 hip).1
  · exact (h.shape i ip hip).1
  · intro j jp _ hj
    exact h.shape j jp hj
  · intro j jp _ hj
    exact h.cache j jp hj

theorem WellFormed.size_le (h : WellFormed s) (hi : s.icache i = some ip) :
    ip.size ≤ maxFile * bSize :=
  (h.shape i ip (h.cache i ip hi)).2

theorem WellFormed.fits (h : WellFormed s) (hi : s.icache i = some ip) : ip.Fits := by
  obtain ⟨-, -, rfl⟩ := allocated_eq_some.1 (h.cache i ip hi)
  exact fits_readInode _ _

theorem WellFormed.type_ne (h : WellFormed s) (hi : s.icache i = some ip) : ip.type ≠ 0 :=
  (allocated_eq_some.1 (h.cache i ip hi)).2.1

theorem Busy.wellFormed (h : Busy s i ip (blockCount ip.size)) (hi : s.allocated i = some ip)
    (hsz : ip.size ≤ maxFile * bSize) : WellFormed (s.cache i ip) := by
  have hself : update s.allocated i (some ip) = s.allocated := by
    rw [← hi]
    exact update_eq_self ..
  constructor
  · have hs := h.sound
    rw [hself] at hs
    exact ⟨hs.layout, hs.owns, hs.metadata⟩
  · intro j jp hj
    by_cases hji : j = i
    · subst hji
      cases Option.some.inj (hi.symm.trans hj)
      exact ⟨h.mine, hsz⟩
    · exact h.shape j jp hji hj
  · intro j jp hj
    by_cases hji : j = i
    · subst hji
      simp only [St.cache, update_self, Option.some.injEq] at hj
      rw [← hj]
      exact hi
    · simp only [St.cache, update_of_ne hji] at hj
      exact h.cache j jp hji hj

theorem Busy.fits (h : Busy s i ip' n) (hip : ip.Fits)
    (he : ip' = { ip with size := ip'.size, addrs := ip'.addrs })
    (hsz : ip'.size ≤ maxFile * bSize) : ip'.Fits := by
  obtain ⟨type, major, minor, nlink, size, addrs⟩ := ip'
  simp only [Inode.mk.injEq, and_true] at he
  obtain ⟨rfl, rfl, rfl, rfl⟩ := he
  refine ⟨hip.type, hip.major, hip.minor, hip.nlink, ?_, ?_⟩
  · simp only [maxFile, nDirect, nIndirect, bSize] at hsz ⊢
    omega
  · intro k
    by_cases hk : addrs k = 0
    · simp only [hk]
      omega
    · have hs : slotAddr s.blocks ⟨ip.type, ip.major, ip.minor, ip.nlink, size, addrs⟩ k.val =
          addrs k := by
        rw [slotAddr, dif_pos k.isLt]
      have hd := h.sound.guarded.inData (k := k.val) (Busy.mem_self i _) (by rwa [hs])
      rw [hs] at hd
      have hlt := Nat.lt_trans hd.2 h.sound.layout.size_lt
      simp only
      omega

theorem dinode_iupdate_ne (h : j ≠ i) : (iupdate s i ip).dinode j = s.dinode j := by
  simp only [St.dinode, iupdate, St.setBlock]
  by_cases hb : s.sb.iblock j = s.sb.iblock i
  · rw [hb, update_self]
    apply readInode_writeInode_ne
    simp only [Superblock.iblock, ipb, bSize] at hb ⊢
    omega
  · rw [update_of_ne hb]

theorem dinode_iupdate (h : ip.Fits) (j : Nat) :
    (iupdate s i ip).dinode j = if j = i then ip else s.dinode j := by
  split
  · next hji =>
    subst hji
    simp only [St.dinode, iupdate, St.setBlock, update_self]
    exact readInode_writeInode _ (Nat.mod_lt _ (by decide)) h
  · next hji => exact dinode_iupdate_ne hji

theorem allocated_iupdate (h : ip.Fits) (hi : i < s.sb.ninodes) :
    (iupdate s i ip).allocated =
      update s.allocated i (if ip.type = 0 then none else some ip) := by
  funext j
  by_cases hji : j = i
  · subst hji
    have hd := dinode_iupdate (s := s) (i := j) h j
    rw [if_pos rfl] at hd
    have hlt : j < (iupdate s j ip).sb.ninodes := hi
    simp only [St.allocated, hd, update_self]
    by_cases ht : ip.type = 0 <;> simp [ht, hlt]
  · have hd := dinode_iupdate (s := s) (i := i) h j
    rw [if_neg hji] at hd
    have hsb : (iupdate s i ip).sb = s.sb := rfl
    simp only [St.allocated, hd, update_of_ne hji, hsb]

theorem Superblock.Ok.bit_iupdate (hok : s.sb.Ok) (hi : i < s.sb.ninodes) (hc : c < s.sb.size) :
    (Fs.iupdate s i ip).bit c = s.bit c := by
  apply bit_setBlock
  · exact fun c _ => (hok.iblock_ne_bblock hi c).symm
  · exact hc

theorem Guarded.slotAddr_iupdate (h : Guarded s f) (hi : i < s.sb.ninodes) (hj : f j = some jp)
    (l : Nat) : slotAddr (Fs.iupdate s i ip).blocks jp l = slotAddr s.blocks jp l := by
  apply slotAddr_congr
  intro hz
  exact update_of_ne (h.layout.iblock_ne_data hi (h.last_inData hj hz)).symm _ _

theorem Sound.iupdate (h : Sound s f) (hi : i < s.sb.ninodes) : Sound (Fs.iupdate s i ip) f := by
  apply h.congr
  · rfl
  · exact fun c hc => h.layout.bit_iupdate hi hc
  · exact fun j jp hj l => h.guarded.slotAddr_iupdate hi hj l

theorem Busy.iupdate (h : Busy s i ip (blockCount ip.size)) (hf : ip.Fits) (ht : ip.type ≠ 0)
    (hsz : ip.size ≤ maxFile * bSize) : WellFormed ((Fs.iupdate s i ip).cache i ip) := by
  have hall := allocated_iupdate (s := s) hf h.inum
  rw [if_neg ht] at hall
  have hslot (j : Nat) (jp : Inode) (hj : update s.allocated i (some ip) j = some jp)
      (l : Nat) : slotAddr (Fs.iupdate s i ip).blocks jp l = slotAddr s.blocks jp l :=
    h.sound.guarded.slotAddr_iupdate h.inum hj l
  apply Busy.wellFormed
  · constructor
    · rw [hall, update_idem]
      exact h.sound.iupdate h.inum
    · exact h.inum
    · exact h.mine.congr (hslot i ip (Busy.mem_self i ip))
    · intro j jp hji hj
      rw [hall, update_of_ne hji] at hj
      obtain ⟨hsh, hle⟩ := h.shape j jp hji hj
      exact ⟨hsh.congr (hslot j jp (Busy.mem_other hji hj)), hle⟩
    · intro j jp hji hj
      rw [hall, update_of_ne hji]
      exact h.cache j jp hji hj
  · rw [hall]
    exact update_self ..
  · exact hsz

theorem slotAddr_setFields (blocks : Nat → Block) (ha : ip'.addrs = ip.addrs) (l : Nat) :
    slotAddr blocks ip' l = slotAddr blocks ip l := by
  simp only [slotAddr, ha]

theorem own_setFields (blocks : Nat → Block) (f : Nat → Option Inode) (i : Nat)
    (ha : ip'.addrs = ip.addrs) : own blocks (update f i (some ip')) =
      own blocks (update f i (some ip)) := by
  funext ⟨j, l⟩
  by_cases hji : j = i
  · subst hji
    simp only [own, update_self, slotAddr_setFields blocks ha]
  · simp only [own, update_of_ne hji]

theorem Busy.setFields (h : Busy s i ip n) (ha : ip'.addrs = ip.addrs) : Busy s i ip' n := by
  constructor
  · refine ⟨h.sound.layout, ?_, h.sound.metadata⟩
    rw [own_setFields _ _ _ ha]
    exact h.sound.owns
  · exact h.inum
  · exact h.mine.congr (slotAddr_setFields s.blocks ha)
  · exact h.shape
  · exact h.cache

theorem Guarded.slotAddr_setBlock (h : Guarded s f) (hi : f i = some ip)
    (ha : slotAddr s.blocks ip (slot bn) = a) (hj : f j = some jp) (blk : Block) :
    slotAddr (s.setBlock a blk).blocks jp l = slotAddr s.blocks jp l := by
  apply slotAddr_congr
  intro hjz
  apply update_of_ne
  intro he
  rw [← slotAddr_last s.blocks jp, ← ha] at he
  rw [← slotAddr_last s.blocks jp] at hjz
  exact slot_ne_last bn (h.slot_inj hj hi hjz he).2.symm

theorem Busy.setBlock (h : Busy s i ip n) (ha : slotAddr s.blocks ip (slot bn) = a)
    (hz : a ≠ 0) (blk : Block) :
    Busy (s.setBlock a blk) i ip n ∧ (s.setBlock a blk).allocated = s.allocated := by
  have hi := Busy.mem_self (s := s) i ip
  have hd : InData s.sb a := by
    rw [← ha] at hz ⊢
    exact h.sound.guarded.inData hi hz
  have hok := h.sound.layout
  have hall := allocated_setBlock hok hd blk
  have hslot (j : Nat) (jp : Inode) (hj : update s.allocated i (some ip) j = some jp)
      (l : Nat) : slotAddr (s.setBlock a blk).blocks jp l = slotAddr s.blocks jp l :=
    h.sound.guarded.slotAddr_setBlock hi ha hj blk
  refine ⟨h.transfer rfl rfl hall ?_ (h.mine.congr (hslot i ip hi)) ?_, hall⟩
  · exact h.sound.congr rfl (fun c hc => bit_setBlock_data hok hd blk hc) hslot
  · intro j jp hji hj
    exact hslot j jp (Busy.mem_other hji hj)

/-- What the loop of `writei` leaves: the file has its first `m` blocks. -/
structure Wrote (s s' : St) (i : Nat) (ip ip' : Inode) (n m : Nat) : Prop where
  busy : Busy s' i ip' m
  sb : s'.sb = s.sb
  fields : ip' = { ip with addrs := ip'.addrs }
  same : m ≤ n → ip' = ip ∧ s'.allocated = s.allocated

theorem Busy.writeLoop (h : Busy s i ip n) (hoff : blockCount off ≤ n) (hfuel : cnt ≤ fuel)
    (ho : Fs.writeLoop fuel s ip src off cnt = .ok (s', ip')) :
    Wrote s s' i ip ip' n (max n (blockCount (off + cnt))) := by
  induction fuel generalizing s ip n src off cnt with
  | zero =>
    cases ho
    obtain rfl : cnt = 0 := by omega
    rw [Nat.add_zero, Nat.max_eq_left hoff]
    exact ⟨h, rfl, rfl, fun _ => ⟨rfl, rfl⟩⟩
  | succ fuel ih =>
    rw [Fs.writeLoop] at ho
    split at ho
    · next hc =>
      cases ho
      rw [hc, Nat.add_zero, Nat.max_eq_left hoff]
      exact ⟨h, rfl, rfl, fun _ => ⟨rfl, rfl⟩⟩
    · next hc =>
      obtain ⟨⟨s₁, ip₁, a⟩, hb, ho⟩ := bind_ok ho
      simp only [blockCount, bSize] at hoff
      have hle : off / bSize ≤ n := by
        simp only [bSize]
        omega
      have hm := h.bmap hle hb
      obtain ⟨hbusy, hall⟩ := hm.busy.setBlock hm.addr hm.pos
        (memmove (s₁.blocks a) (off % bSize) (min cnt (bSize - off % bSize)) src)
      have hw := ih hbusy (by simp only [blockCount, bSize]; omega)
        (by simp only [bSize]; omega) ho
      have hmax : max (max n (off / bSize + 1)) (blockCount (off + min cnt (bSize - off % bSize) +
          (cnt - min cnt (bSize - off % bSize)))) = max n (blockCount (off + cnt)) := by
        simp only [blockCount, bSize]
        omega
      rw [hmax] at hw
      refine ⟨hw.busy, hw.sb.trans hm.sb, ?_, ?_⟩
      · rw [hw.fields, hm.fields]
      · intro hle
        have hlt : off / bSize < n := by
          simp only [blockCount, bSize] at hle ⊢
          omega
        obtain ⟨rfl, rfl⟩ := hm.same hlt
        have hs := hw.same (Nat.le_trans hle (Nat.le_max_left _ _))
        exact ⟨hs.1, hs.2.trans hall⟩

theorem writeLoop_error (hoff : off + cnt ≤ maxFile * bSize)
    (h : Fs.writeLoop fuel s ip src off cnt = .error e) :
    e = .panic "balloc: out of blocks" := by
  induction fuel generalizing s ip src off cnt with
  | zero => cases h
  | succ fuel ih =>
    rw [Fs.writeLoop] at h
    split at h
    · cases h
    · next hc =>
      obtain h | ⟨⟨s₁, ip₁, a⟩, _, h⟩ := bind_error h
      · apply bmap_error _ h
        simp only [maxFile, nDirect, nIndirect, bSize] at hoff ⊢
        omega
      · apply ih _ h
        omega

theorem Busy.readLoop (h : Busy s i ip n) (hoff : blockCount (off + cnt) ≤ n)
    (ho : Fs.readLoop fuel s ip off cnt = .ok (s', ip', dst)) : s' = s ∧ ip' = ip := by
  induction fuel generalizing s ip off cnt dst with
  | zero =>
    cases ho
    exact ⟨rfl, rfl⟩
  | succ fuel ih =>
    rw [Fs.readLoop] at ho
    split at ho
    · cases ho
      exact ⟨rfl, rfl⟩
    · next hc =>
      obtain ⟨⟨s₁, ip₁, a⟩, hb, ho⟩ := bind_ok ho
      obtain ⟨⟨s₂, ip₂, rest⟩, hr, ho⟩ := bind_ok ho
      cases ho
      simp only [blockCount, bSize] at hoff
      have hlt : off / bSize < n := by
        simp only [bSize]
        omega
      obtain ⟨rfl, rfl⟩ := (h.bmap (Nat.le_of_lt hlt) hb).same hlt
      apply ih h _ hr
      simp only [blockCount, bSize]
      omega

theorem readLoop_error (hoff : off + cnt ≤ maxFile * bSize)
    (h : Fs.readLoop fuel s ip off cnt = .error e) : e = .panic "balloc: out of blocks" := by
  induction fuel generalizing s ip off cnt with
  | zero => cases h
  | succ fuel ih =>
    rw [Fs.readLoop] at h
    split at h
    · cases h
    · next hc =>
      obtain h | ⟨⟨s₁, ip₁, a⟩, _, h⟩ := bind_error h
      · apply bmap_error _ h
        simp only [maxFile, nDirect, nIndirect, bSize] at hoff ⊢
        omega
      · obtain h | ⟨_, _, h⟩ := bind_error h
        · apply ih _ h
          omega
        · cases h

theorem toNat_add_of_le {x y : UInt32} (h : ¬x + y < x) : (x + y).toNat = x.toNat + y.toNat := by
  rw [UInt32.lt_iff_toNat_lt, UInt32.toNat_add] at h
  rw [UInt32.toNat_add]
  have hx := x.toNat_lt
  have hy := y.toNat_lt
  omega

theorem cache_of_cached (hi : s.icache i = some ip) : s.cache i ip = s := by
  have he : update s.icache i (some ip) = s.icache := by
    rw [← hi]
    exact update_eq_self ..
  simp only [St.cache, he]

theorem WellFormed.writei (h : WellFormed s) (hi : s.icache i = some ip)
    (ho : Fs.writei devsw s i ip src off cnt = .ok (s', ip', r)) : WellFormed (s'.cache i ip') := by
  have hself : WellFormed (s.cache i ip) := by rwa [cache_of_cached hi]
  rw [Fs.writei] at ho
  split at ho
  · cases ho
    exact hself
  split at ho
  · cases ho
    exact hself
  · next hov =>
    rw [not_or] at hov
    rw [toNat_add_of_le hov.2] at ho
    split at ho
    · cases ho
      exact hself
    · next hmax =>
      obtain ⟨⟨s₁, ip₁⟩, hl, ho⟩ := bind_ok ho
      have hle : blockCount off.toNat ≤ blockCount ip.size := by
        have hle := Nat.le_of_not_lt hov.1
        simp only [blockCount, bSize]
        omega
      have hw := (h.busy hi).writeLoop hle (Nat.le_refl _) hl
      have hsize : ip₁.size = ip.size := by rw [hw.fields]
      simp only at ho
      split at ho
      · next hgrow =>
        cases ho
        rw [hsize] at hgrow
        have hcount : max (blockCount ip.size) (blockCount (off.toNat + cnt.toNat)) =
            blockCount (off.toNat + cnt.toNat) := by
          simp only [blockCount, bSize]
          omega
        have hb := hw.busy
        rw [hcount] at hb
        have hb' : Busy s₁ i { ip₁ with size := off.toNat + cnt.toNat }
            (blockCount (off.toNat + cnt.toNat)) := hb.setFields rfl
        have hle := Nat.le_of_not_lt hmax
        apply hb'.iupdate
        · apply hb'.fits (h.fits hi) _ hle
          rw [hw.fields]
        · have ht : ip₁.type = ip.type := by rw [hw.fields]
          simp only [ht]
          exact h.type_ne hi
        · exact hle
      · next hgrow =>
        cases ho
        rw [hsize] at hgrow
        have hcount : max (blockCount ip.size) (blockCount (off.toNat + cnt.toNat)) =
            blockCount ip.size := by
          simp only [blockCount, bSize]
          omega
        rw [hcount] at hw
        obtain ⟨rfl, hall⟩ := hw.same (Nat.le_refl _)
        apply hw.busy.wellFormed _ (h.size_le hi)
        rw [hall]
        exact h.cache i ip' hi

theorem writei_error (h : Fs.writei devsw s i ip src off cnt = .error e) :
    e = .panic "balloc: out of blocks" := by
  rw [Fs.writei] at h
  split at h
  · cases h
  split at h
  · cases h
  · next hov =>
    rw [not_or] at hov
    rw [toNat_add_of_le hov.2] at h
    split at h
    · cases h
    · next hmax =>
      obtain h | ⟨⟨s₁, ip₁⟩, _, h⟩ := bind_error h
      · exact writeLoop_error (Nat.le_of_not_lt hmax) h
      · simp only at h
        split at h
        · cases h
        · cases h

theorem readi_count_le {off cnt : UInt32} (hov : ¬(ip.size < off.toNat ∨ off + cnt < off)) :
    off.toNat + (if ip.size < (off + cnt).toNat then ip.size - off.toNat else cnt.toNat) ≤
      ip.size := by
  rw [not_or] at hov
  rw [toNat_add_of_le hov.2]
  have hle := Nat.le_of_not_lt hov.1
  split
  · omega
  · omega

theorem WellFormed.readi (h : WellFormed s) (hi : s.icache i = some ip)
    (ho : Fs.readi devsw s ip off cnt = .ok (s', ip', dst, r)) : s' = s ∧ ip' = ip := by
  rw [Fs.readi] at ho
  split at ho
  · cases ho
    exact ⟨rfl, rfl⟩
  split at ho
  · cases ho
    exact ⟨rfl, rfl⟩
  · next hov =>
    have hle := readi_count_le hov
    obtain ⟨⟨s₁, ip₁, rest⟩, hl, ho⟩ := bind_ok ho
    cases ho
    apply (h.busy hi).readLoop _ hl
    exact Nat.div_le_div_right (Nat.add_le_add_right hle _)

theorem WellFormed.readi_error (h : WellFormed s) (hi : s.icache i = some ip)
    (ho : Fs.readi devsw s ip off cnt = .error e) : e = .panic "balloc: out of blocks" := by
  rw [Fs.readi] at ho
  split at ho
  · cases ho
  split at ho
  · cases ho
  · next hov =>
    have hle := readi_count_le hov
    obtain ho | ⟨_, _, ho⟩ := bind_error ho
    · exact readLoop_error (Nat.le_trans hle (h.size_le hi)) ho
    · cases ho

end Xv6.Fs
