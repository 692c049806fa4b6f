import Xv6.Fs.Namei
import Xv6.Mkfs.Image

namespace Xv6.Mkfs
open Lib Fs Function
open Fs.Namei (readsb)
set_option autoImplicit true

variable {m m' : Image} {c : Nat → Option Inode} {f : Nat → Option Inode} {din din' ip : Inode}
  {i b x fbn off n fuel : Nat} {p : Nat → UInt8}

/-- The inodes that fit in the inode blocks, more than the super block says. -/
abbrev tableSize : Nat := nInodeBlocks * ipb

/-- The super block with all inodes of the inode blocks. -/
def wide : Superblock := { sb with ninodes := tableSize }

/-- The image as the kernel would find it if the bit map were written now. -/
def Image.view (m : Image) (c : Nat → Option Inode) : St where
  sb := wide
  blocks := update m.sect sb.bmapstart (usedBits m.freeblock)
  icache := c

/-- The sectors from `freeblock` on are not written yet, the super block is. -/
structure Fresh (m : Image) : Prop where
  len : m.len = fsSize
  lower : nMeta ≤ m.freeblock
  upper : m.freeblock ≤ fsSize
  zero : ∀ b, m.freeblock ≤ b → m.sect b = fun _ => 0
  super : readsb (m.sect 1) = sb

theorem wide_ok : wide.Ok := by
  constructor
  · decide
  · intro i hi
    simp only [wide, tableSize, nInodeBlocks, nInodes, ipb, bSize] at hi
    simp only [Superblock.iblock, wide, sb, ipb, bSize, nInodeBlocks, nInodes, nLog, logSize,
      maxOpBlocks]
    omega
  · intro b hb
    simp only [wide, sb, fsSize] at hb
    simp only [Superblock.bblock, Superblock.dataStart, wide, sb, bpb, bSize, nInodeBlocks, nInodes,
      nLog, logSize, maxOpBlocks, nBlocks, nMeta, nBitmap, ipb, fsSize]
    omega

theorem sb_ok : sb.Ok :=
  ⟨wide_ok.size_lt, fun i hi => wide_ok.iblock_lt i (Nat.lt_trans hi (by decide)),
    wide_ok.bblock_lt⟩

theorem bitAt_usedBits (hn : n ≤ bpb) (j : Nat) : bitAt (usedBits n) j = decide (j < n) := by
  induction n with
  | zero => simp [usedBits, bitAt, byteAt]
  | succ n ih =>
    have hlt : n / 8 < bSize := by
      simp only [bpb, bSize] at hn ⊢
      omega
    rw [usedBits, bitAt_setBit _ hlt, ih (by omega), ← Bool.decide_or, decide_eq_decide]
    omega

theorem bblock_eq (hb : b < bpb) : wide.bblock b = sb.bmapstart := by
  rw [Superblock.bblock, Nat.div_eq_of_lt hb, Nat.zero_add]
  rfl

theorem view_map (m : Image) (c : Nat → Option Inode) :
    (m.view c).blocks sb.bmapstart = usedBits m.freeblock := by
  simp only [Image.view, update_self]

theorem Fresh.bit (h : Fresh m) (hb : b < bpb) : (m.view c).bit b = decide (b < m.freeblock) := by
  have hle : m.freeblock ≤ bpb := Nat.le_trans h.upper (by decide)
  rw [St.bit, Nat.mod_eq_of_lt hb]
  show bitAt ((m.view c).blocks (wide.bblock b)) b = _
  rw [bblock_eq hb, view_map, bitAt_usedBits hle]

theorem Fresh.lt_of_bit (h : Fresh m) (hb : b < fsSize) (hu : (m.view c).bit b = true) :
    b < m.freeblock := by
  rw [h.bit (Nat.lt_trans hb (by decide))] at hu
  exact of_decide_eq_true hu

theorem view_blocks (m : Image) (c : Nat → Option Inode) (hx : x ≠ sb.bmapstart) :
    (m.view c).blocks x = m.sect x :=
  update_of_ne hx _ _

theorem view_wsect (m : Image) (c : Nat → Option Inode) (hx : x ≠ sb.bmapstart) (blk : Block) :
    (wsect m x blk).view c = (m.view c).setBlock x blk := by
  simp only [Image.view, wsect, St.setBlock]
  rw [update_comm hx]

theorem Fresh.wsect (h : Fresh m) (hx : x < m.freeblock) (h1 : x ≠ 1) (blk : Block) :
    Fresh (Mkfs.wsect m x blk) := by
  have hlen := h.len
  have hupper := h.upper
  constructor
  · show max m.len (x + 1) = fsSize
    omega
  · exact h.lower
  · exact h.upper
  · intro b hb
    have hbx : b ≠ x := fun he => Nat.not_lt_of_le hb (he ▸ hx)
    rw [← h.zero b hb]
    exact update_of_ne hbx _ _
  · rw [← h.super]
    exact congrArg readsb (update_of_ne (Ne.symm h1) _ _)

theorem Fresh.findFree (h : Fresh m) (hlt : m.freeblock < fsSize) :
    (m.view c).findFree = some m.freeblock := by
  have hle : m.freeblock ≤ bpb := Nat.le_trans h.upper (by decide)
  have hclear : clearBitIn (usedBits m.freeblock) fsSize = some m.freeblock := by
    apply List.find?_range_eq_some.2
    refine ⟨?_, List.mem_range.2 hlt, ?_⟩
    · rw [bitAt_usedBits hle]
      simp
    · intro j hj
      rw [bitAt_usedBits hle]
      simpa using hj
  have hone : ((m.view c).sb.size + (bpb - 1)) / bpb = 1 := by
    show (wide.size + (bpb - 1)) / bpb = 1
    decide
  have hmap : (m.view c).sb.bblock (0 * bpb) = sb.bmapstart := by
    show wide.bblock (0 * bpb) = sb.bmapstart
    decide
  have hlen : min bpb ((m.view c).sb.size - 0 * bpb) = fsSize := by
    show min bpb (wide.size - 0 * bpb) = fsSize
    decide
  rw [St.findFree, hone, List.range_one, List.findSome?_cons, hmap, hlen, view_map, hclear,
    Option.map_some, Nat.zero_mul, Nat.zero_add]

theorem Fresh.balloc (h : Fresh m) (hlt : m.freeblock < fsSize) :
    Fs.balloc (m.view c) =
      .ok (({ m with freeblock := m.freeblock + 1 } : Image).view c, m.freeblock) := by
  have hb : m.freeblock < bpb := Nat.lt_trans hlt (by decide)
  have hlower := h.lower
  have hne : m.freeblock ≠ sb.bmapstart := by
    intro he
    rw [he] at hlower
    exact absurd hlower (by decide)
  have hmap : (m.view c).sb.bblock m.freeblock = sb.bmapstart := bblock_eq hb
  rw [Fs.balloc, h.findFree hlt]
  dsimp only
  rw [hmap, view_map, Nat.mod_eq_of_lt hb]
  congr 2
  simp only [bzero, St.setBlock, Image.view, St.mk.injEq, true_and, and_true]
  rw [update_idem, update_comm hne.symm, ← h.zero m.freeblock (Nat.le_refl _),
    update_eq_self]
  rfl

theorem Fresh.next (h : Fresh m) (hlt : m.freeblock < fsSize) :
    Fresh { m with freeblock := m.freeblock + 1 } :=
  ⟨h.len, Nat.le_succ_of_le h.lower, hlt, fun b hb => h.zero b (Nat.le_of_succ_le hb), h.super⟩

theorem Fresh.balloc_full (h : Fresh m) (hge : ¬m.freeblock < fsSize) :
    ∃ e, Fs.balloc (m.view c) = .error e := by
  cases hb : Fs.balloc (m.view c) with
  | error e => exact ⟨e, rfl⟩
  | ok r =>
    rw [Fs.balloc] at hb
    split at hb
    · next b hf =>
      obtain ⟨hlt, hfree⟩ := findFree_some hf
      have hlt : b < fsSize := hlt
      rw [h.bit (Nat.lt_trans hlt (by decide)), decide_eq_false_iff_not] at hfree
      omega
    · cases hb

/-- One step of mkfs has done what the kernel would. -/
structure Follows (m m' : Image) : Prop where
  fresh : Fresh m'
  freeinode : m'.freeinode = m.freeinode

theorem Follows.trans (h : Follows m m₁) (h' : Follows m₁ m') : Follows m m' :=
  ⟨h'.fresh, h'.freeinode.trans h.freeinode⟩

theorem Fresh.addrOf (h : Fresh m) (k : Fin (nDirect + 1))
    (hold : din.addrs k ≠ 0 → din.addrs k < fsSize) (ho : Mkfs.addrOf m din k = (m', din', x)) :
    (x < fsSize ∧ Follows m m' ∧ Fs.addrOf (m.view c) din k = .ok (m'.view c, din', x)) ∨
      (¬x < fsSize ∧ m'.len = fsSize ∧ ∃ e, Fs.addrOf (m.view c) din k = .error e) := by
  rw [Mkfs.addrOf] at ho
  rw [Fs.addrOf]
  split at ho
  · next hz =>
    cases ho
    rw [if_pos hz]
    by_cases hlt : m.freeblock < fsSize
    · left
      refine ⟨hlt, ⟨h.next hlt, rfl⟩, ?_⟩
      rw [h.balloc hlt]
      rfl
    · right
      obtain ⟨e, he⟩ := h.balloc_full (c := c) hlt
      refine ⟨hlt, h.len, e, ?_⟩
      rw [he]
      rfl
  · next hz =>
    cases ho
    rw [if_neg hz]
    exact .inl ⟨hold hz, ⟨h, rfl⟩, rfl⟩

theorem rsect_ok (h : x < m.len) : rsect m x = .ok (m.sect x) :=
  if_pos h

theorem rsect_error (h : ¬x < m.len) : rsect m x = .error .read :=
  if_neg h

theorem InData.ne_bmapstart (h : InData wide x) : x ≠ sb.bmapstart := by
  rintro rfl
  exact absurd h.1 (by decide)

theorem InData.ne_one (h : InData wide x) : x ≠ 1 := by
  rintro rfl
  exact absurd h.1 (by decide)

theorem Fresh.blockOf (h : Fresh m) (hg : Guarded (m.view c) f) (hi : f i = some din)
    (hfbn : fbn < maxFile) :
    (∃ m' din' x, Mkfs.blockOf m din fbn = .ok (m', din', x) ∧ x < fsSize ∧ Follows m m' ∧
      Fs.bmap (m.view c) din fbn = .ok (m'.view c, din', x)) ∨
    (∃ e, Fs.bmap (m.view c) din fbn = .error e) ∧
      ∀ m' din' x, Mkfs.blockOf m din fbn = .ok (m', din', x) → m'.len = fsSize ∧ ¬x < fsSize := by
  have hold (k : Fin (nDirect + 1)) (hk : din.addrs k ≠ 0) : din.addrs k < fsSize := by
    have hslot : slotAddr (m.view c).blocks din k.val = din.addrs k := by
      rw [slotAddr, dif_pos k.isLt]
    have hd := hg.inData hi (k := k.val) (by rwa [hslot])
    rw [hslot] at hd
    exact hd.2
  rw [Mkfs.blockOf, Fs.bmap]
  split
  · next hd =>
    generalize ho : Mkfs.addrOf m din ⟨fbn, Nat.lt_succ_of_lt hd⟩ = r
    obtain ⟨m₁, din₁, x⟩ := r
    rcases h.addrOf (c := c) _ (hold _) ho with ⟨hx, hm, hk⟩ | ⟨hx, hlen, he⟩
    · exact .inl ⟨m₁, din₁, x, rfl, hx, hm, hk⟩
    · refine .inr ⟨he, ?_⟩
      intro m' din' x' heq
      cases heq
      exact ⟨hlen, hx⟩
  · next hd =>
    have hlt : fbn - nDirect < nIndirect := by
      simp only [maxFile] at hfbn
      omega
    rw [if_pos hlt]
    generalize ho : Mkfs.addrOf m din (Fin.last nDirect) = r
    obtain ⟨m₁, din₁, addr⟩ := r
    dsimp only
    rcases h.addrOf (c := c) _ (hold _) ho with ⟨hx, hm, hk⟩ | ⟨hx, hlen, e, he⟩
    · obtain ⟨hgr, rfl, hz⟩ := addrOf_grows hg hi _ hk
      have hself : update f i (some din₁) i = some din₁ := update_self ..
      have hdata : InData wide (din₁.addrs (Fin.last nDirect)) := hgr.guarded.last_inData hself hz
      have hused : (m₁.view c).bit (din₁.addrs (Fin.last nDirect)) = true := by
        have hlast : slotAddr (m₁.view c).blocks din₁ nDirect ≠ 0 := by rwa [slotAddr_last]
        have hown := own_of_slot hself hlast
        rw [slotAddr_last] at hown
        exact hgr.guarded.holds.used _ _ hown
      have hlow := hm.fresh.lt_of_bit hx hused
      have hmap := InData.ne_bmapstart hdata
      have hread : rsect m₁ (din₁.addrs (Fin.last nDirect)) =
          .ok (m₁.sect (din₁.addrs (Fin.last nDirect))) := rsect_ok (by rwa [hm.fresh.len])
      rw [hread, hk, ok_bind, ok_bind]
      dsimp only
      rw [view_blocks m₁ c hmap]
      split
      · by_cases hfull : m₁.freeblock < fsSize
        · left
          refine ⟨_, _, _, rfl, hfull, hm.trans ⟨?_, rfl⟩, ?_⟩
          · exact (hm.fresh.next hfull).wsect (Nat.lt_succ_of_lt hlow) (InData.ne_one hdata) _
          · rw [hm.fresh.balloc hfull, ok_bind]
            dsimp only
            rw [view_wsect _ c hmap, view_blocks _ c hmap]
        · right
          obtain ⟨e, he⟩ := hm.fresh.balloc_full (c := c) hfull
          refine ⟨⟨e, by rw [he]; rfl⟩, ?_⟩
          intro m' din' x' heq
          cases heq
          refine ⟨?_, hfull⟩
          show max m₁.len _ = fsSize
          rw [hm.fresh.len]
          omega
      · next hw =>
        refine .inl ⟨_, _, _, rfl, ?_, hm, rfl⟩
        have hentry := slotAddr_entry (m₁.view c).blocks din₁ hd hlt hz
        rw [view_blocks m₁ c hmap] at hentry
        have hin := hgr.guarded.inData hself (k := slot fbn) (by rwa [hentry])
        rw [hentry] at hin
        exact hin.2
    · right
      refine ⟨⟨e, by rw [he]; rfl⟩, ?_⟩
      intro m' din' x' heq
      rw [rsect_error (by rwa [hlen])] at heq
      cases heq

/-- The loop of `iappend` writes what that of `writei` writes, or neither ends well. -/
theorem Fresh.appendLoop (p : Nat → UInt8) (off : Nat) (h : Fresh m) (hg : Guarded (m.view c) f) (hi : f i = some din)
    (hn : n ≤ fuel) :
    (∃ m' din', Mkfs.appendLoop fuel m din p off n = .ok (m', din', off + n) ∧ Follows m m' ∧
      writeLoop fuel (m.view c) din p off n = .ok (m'.view c, din')) ∨
    ∃ e e', Mkfs.appendLoop fuel m din p off n = .error e ∧
      writeLoop fuel (m.view c) din p off n = .error e' := by
  induction fuel generalizing p off m f din n with
  | zero =>
    obtain rfl := Nat.le_zero.1 hn
    exact .inl ⟨m, din, rfl, ⟨h, rfl⟩, rfl⟩
  | succ fuel ih =>
    rw [Mkfs.appendLoop, writeLoop]
    split
    · next hz =>
      subst hz
      exact .inl ⟨m, din, rfl, ⟨h, rfl⟩, rfl⟩
    next hz =>
    have hmin : min n ((off / bSize + 1) * bSize - off) = min n (bSize - off % bSize) := by
      simp only [bSize]
      omega
    have hoff : off - off / bSize * bSize = off % bSize := by
      simp only [bSize]
      omega
    have hle : min n (bSize - off % bSize) ≤ n := Nat.min_le_left _ _
    have hm : min n (bSize - off % bSize) ≤ bSize - off % bSize := Nat.min_le_right _ _
    have hpos : 0 < min n (bSize - off % bSize) := by
      simp only [bSize]
      omega
    rw [hmin, hoff]
    generalize min n (bSize - off % bSize) = n1 at *
    split
    · next hmax =>
      rcases h.blockOf hg hi hmax with ⟨m₁, din₁, x, hb, hx, hfol, hk⟩ | ⟨⟨e, he⟩, hnone⟩
      · have hround : Fills (m.view c) _ f i din din₁ off n1 p := round_fills hg hi hk hm rfl
        obtain ⟨hgr, ha, hz'⟩ := bmap_grows hg hi hk
        have hself : update f i (some din₁) i = some din₁ := update_self ..
        have hdata : InData wide x := by
          rw [← ha] at hz' ⊢
          exact hgr.guarded.inData hself hz'
        have hused : (m₁.view c).bit x = true := by
          have hown := own_of_slot hself (by rwa [ha] : slotAddr _ _ (slot (off / bSize)) ≠ 0)
          rw [ha] at hown
          exact hgr.guarded.holds.used _ _ hown
        have hmap := InData.ne_bmapstart hdata
        have hlow := hfol.fresh.lt_of_bit hx hused
        have hread : rsect m₁ x = .ok (m₁.sect x) := rsect_ok (by rwa [hfol.fresh.len])
        rw [hb, hk, ok_bind, ok_bind]
        dsimp only
        rw [hread, ok_bind]
        have hblk := view_blocks m₁ c hmap
        have hview := view_wsect m₁ c hmap (memmove (m₁.sect x) (off % bSize) n1 p)
        rw [hblk] at hround ⊢
        rw [← hview] at hround ⊢
        have hnext := hfol.fresh.wsect hlow (InData.ne_one hdata)
          (memmove (m₁.sect x) (off % bSize) n1 p)
        rcases ih (fun k => p (n1 + k)) (off + n1) hnext hround.guarded hself
          (by omega : n - n1 ≤ fuel) with ⟨m', din', h₁, h₂, h₃⟩ | ⟨e, e', h₁, h₂⟩
        · left
          refine ⟨m', din', ?_, hfol.trans ⟨h₂.fresh, h₂.freeinode⟩, h₃⟩
          rw [h₁]
          congr 3
          omega
        · exact .inr ⟨e, e', h₁, h₂⟩
      · right
        rw [he]
        cases hb : Mkfs.blockOf m din (off / bSize) with
        | error e' => exact ⟨e', e, rfl, rfl⟩
        | ok r =>
          obtain ⟨m₁, din₁, x⟩ := r
          obtain ⟨hlen, hx⟩ := hnone _ _ _ hb
          refine ⟨.read, e, ?_, rfl⟩
          rw [ok_bind]
          dsimp only
          rw [rsect_error (by rwa [hlen])]
          rfl
    · next hmax =>
      right
      have hd : ¬off / bSize < nDirect := by
        simp only [maxFile] at hmax
        omega
      have hlt : ¬off / bSize - nDirect < nIndirect := by
        simp only [maxFile] at hmax
        omega
      refine ⟨_, .panic "bmap: out of range", rfl, ?_⟩
      rw [Fs.bmap, dif_neg hd, if_neg hlt]
      rfl

theorem iblock_bounds (hi : i < tableSize) :
    sb.iblock i ≠ sb.bmapstart ∧ sb.iblock i ≠ 1 ∧ sb.iblock i < nMeta := by
  have hlt : sb.iblock i < sb.bmapstart := wide_ok.iblock_lt i hi
  have hle : 2 + nLog ≤ sb.iblock i := Nat.le_add_left _ _
  have hmap : sb.bmapstart < nMeta := by decide
  have hone : 1 < 2 + nLog := by decide
  omega

theorem Fresh.winode (h : Fresh m) (hi : i < tableSize) (ip : Inode) :
    ∃ m', Mkfs.winode m i ip = .ok m' ∧ Follows m m' ∧ m'.freeblock = m.freeblock ∧
      ∀ c, m'.view c = iupdate (m.view c) i ip := by
  obtain ⟨hmap, hone, hlt⟩ := iblock_bounds hi
  have hlow := Nat.lt_of_lt_of_le hlt h.lower
  have hupper := h.upper
  refine ⟨_, by rw [Mkfs.winode, rsect_ok (by rw [h.len]; omega), ok_bind],
    ⟨h.wsect hlow hone _, rfl⟩, rfl, ?_⟩
  intro c
  rw [view_wsect _ c hmap, ← view_blocks m c hmap]
  rfl

theorem Fresh.rinode (h : Fresh m) (hi : i < tableSize) (c : Nat → Option Inode) :
    Mkfs.rinode m i = .ok ((m.view c).dinode i) := by
  obtain ⟨hmap, -, hlt⟩ := iblock_bounds hi
  have hlower := h.lower
  have hupper := h.upper
  rw [Mkfs.rinode, rsect_ok (by rw [h.len]; omega), ok_bind, ← view_blocks m c hmap]
  rfl

end Xv6.Mkfs
