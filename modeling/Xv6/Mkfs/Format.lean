import Xv6.Mkfs.Build

namespace Xv6.Mkfs
open Lib Fs Function
open Fs.Namei (readsb mount bytes Packed Listing)
open Sys (rootIno tDir tFile slash)
set_option autoImplicit true

variable {m m₁ : Image} {ip : Inode} {files : List File} {i k : Nat}

/-- The archive before the size of its root directory is rounded up. -/
structure Rounding (m₁ : Image) (ip : Inode) (files : List File) : Prop where
  made : Made m₁ (archive files)
  root : m₁.disk.allocated rootIno = some ip
  entry : Entry m₁.disk ip (tDir, bytes (dents files))
  count : files.length + 1 < tableSize

namespace Rounding

theorem size (h : Rounding m₁ ip files) : ip.size = 16 * (files.length + 2) := by
  rw [h.entry.size]
  exact length_bytes_dents h.count

theorem rounded_size (h : Rounding m₁ ip files) :
    (rounded ip).size = ((files.length + 2) / 32 + 1) * bSize := by
  show (ip.size / bSize + 1) * bSize = _
  rw [h.size]
  simp only [bSize]
  omega

theorem rounded_le (h : Rounding m₁ ip files) : (rounded ip).size ≤ maxFile * bSize := by
  have hcount := h.count
  rw [h.rounded_size]
  simp only [tableSize, nInodeBlocks, nInodes, ipb, bSize] at hcount
  simp only [maxFile, nDirect, nIndirect, bSize]
  omega

theorem fits (h : Rounding m₁ ip files) : (rounded ip).Fits := by
  have hf : ip.Fits := by
    obtain ⟨-, -, rfl⟩ := allocated_eq_some.1 h.root
    exact fits_readInode _ _
  exact ⟨hf.type, hf.major, hf.minor, hf.nlink, Nat.lt_of_le_of_lt h.rounded_le (by decide),
    hf.addrs⟩

theorem type (h : Rounding m₁ ip files) : (rounded ip).type = tDir :=
  h.entry.type

theorem allocated (h : Rounding m₁ ip files) :
    (iupdate m₁.disk rootIno (rounded ip)).allocated =
      update m₁.disk.allocated rootIno (some (rounded ip)) := by
  have hlt : rootIno < m₁.disk.sb.ninodes := (allocated_eq_some.1 h.root).1
  have ht : (rounded ip).type ≠ 0 := by
    rw [h.type]
    decide
  rw [allocated_iupdate h.fits hlt, if_neg ht]

theorem guarded (h : Rounding m₁ ip files) :
    Guarded (iupdate m₁.disk rootIno (rounded ip))
      (iupdate m₁.disk rootIno (rounded ip)).allocated := by
  have hg : Guarded (iupdate m₁.disk rootIno (rounded ip)) m₁.disk.allocated :=
    h.made.wellFormed.sound.guarded.iupdate (allocated_eq_some.1 h.root).1
  refine ⟨hg.layout, ?_, hg.metadata⟩
  have hself : update m₁.disk.allocated rootIno (some ip) = m₁.disk.allocated := by
    rw [← h.root]
    exact update_eq_self ..
  have haddrs : (rounded ip).addrs = ip.addrs := rfl
  have hown := own_setFields (iupdate m₁.disk rootIno (rounded ip)).blocks m₁.disk.allocated rootIno
    haddrs
  rw [hself] at hown
  rw [h.allocated, hown]
  exact hg.holds

theorem wellFormed (h : Rounding m₁ ip files) (halign : (files.length + 2) % 32 ≠ 0) :
    WellFormed (iupdate m₁.disk rootIno (rounded ip)) := by
  have hwf := h.made.locked h.root
  have hcached : (m₁.disk.cache rootIno ip).icache rootIno = some ip := by
    simp only [St.cache, update_self]
  have hcount : blockCount ip.size = blockCount (rounded ip).size := by
    rw [h.rounded_size, h.size]
    simp only [blockCount, bSize]
    omega
  have hb : Busy (m₁.disk.cache rootIno ip) rootIno (rounded ip) (blockCount ip.size) :=
    (hwf.busy hcached).setFields rfl
  rw [hcount] at hb
  have ht : (rounded ip).type ≠ 0 := by
    rw [h.type]
    decide
  have hw := (hb.iupdate h.fits ht h.rounded_le).recycle rootIno
  have hdisk : ((iupdate (m₁.disk.cache rootIno ip) rootIno (rounded ip)).cache rootIno
      (rounded ip)).uncache rootIno = iupdate m₁.disk rootIno (rounded ip) := by
    simp only [iupdate, St.cache, St.uncache, St.setBlock, update_idem]
    congr 1
    exact update_eq_self rootIno _
  rwa [hdisk] at hw

theorem other (h : Rounding m₁ ip files) (hi : m₁.disk.allocated i = some jp)
    (he : Entry m₁.disk jp e) : Entry (iupdate m₁.disk rootIno (rounded ip)) jp e := by
  have hg := h.made.wellFormed.sound.guarded
  have hlt := (allocated_eq_some.1 h.root).1
  exact he.congr (hg.slotAddr_iupdate hlt hi) fun k hp => (hg.iupdate_byte hlt hi hp).2

end Rounding

/-- Every block below a size has an address, none is held twice, and the bit map marks the first
`used` blocks. -/
structure Consistent (s : St) (used : Nat) : Prop where
  mapped : ∀ i, i < tableSize → (s.dinode i).type ≠ 0 → ∀ bn, bn < blockCount (s.dinode i).size →
    slotAddr s.blocks (s.dinode i) (slot bn) ≠ 0
  inside : ∀ i, i < tableSize → (s.dinode i).type ≠ 0 → ∀ k, slotAddr s.blocks (s.dinode i) k ≠ 0 →
    nMeta ≤ slotAddr s.blocks (s.dinode i) k ∧ slotAddr s.blocks (s.dinode i) k < s.sb.size
  distinct : ∀ i j, i < tableSize → j < tableSize → (s.dinode i).type ≠ 0 →
    (s.dinode j).type ≠ 0 → ∀ k l, slotAddr s.blocks (s.dinode i) k ≠ 0 →
    slotAddr s.blocks (s.dinode i) k = slotAddr s.blocks (s.dinode j) l → i = j ∧ k = l
  marked : ∀ b, b < bpb → (bitAt (s.blocks s.sb.bmapstart) b = true ↔ b < used)
  readable : ∀ i, i < tableSize → (s.dinode i).type ≠ 0 → (s.dinode i).type ≠ tDev →
    ∀ devsw off n, ∃ dst r, readi devsw s (s.dinode i) off n = .ok (s, s.dinode i, dst, r)

theorem Finished.mount_eq (h : Finished m files) : mount m.sect = ⟨sb, m.sect, fun _ => none⟩ := by
  rw [mount, h.super]

theorem Finished.rounding (h : Finished m files) (hcount : files.length + 1 < tableSize) :
    ∃ m₁ ip, Rounding m₁ ip files ∧
      mount m.sect = { iupdate m₁.disk rootIno (rounded ip) with sb := sb } := by
  obtain ⟨m₁, ip, hmade, hroot, hentry, -, hsect⟩ := h.made
  refine ⟨m₁, ip, ⟨hmade, hroot, hentry, hcount⟩, ?_⟩
  rw [h.mount_eq, hsect]
  rfl

theorem Finished.marked (h : Finished m files) (b : Nat) :
    bitAt ((mount m.sect).blocks (mount m.sect).sb.bmapstart) b = true ↔ b < m.freeblock := by
  have hle : m.freeblock ≤ bpb := Nat.le_trans h.upper (by decide)
  rw [h.mount_eq]
  dsimp only
  rw [h.map, bitAt_usedBits hle, decide_eq_true_eq]

theorem fits_archive (hcount : files.length + 1 < tableSize)
    (hsize : ∀ f ∈ files, f.bytes.length ≤ maxFile * bSize)
    (hspace : nMeta + need (16 * (files.length + 2)) +
      (files.map fun f => need f.bytes.length).sum ≤ fsSize) : Fits (archive files) := by
  have hlen := length_bytes_dents hcount
  constructor
  · intro e he
    rcases List.mem_cons.1 he with rfl | he
    · show (bytes (dents files)).length ≤ maxFile * bSize
      rw [hlen]
      simp only [tableSize, nInodeBlocks, nInodes, ipb, bSize] at hcount
      simp only [maxFile, nDirect, nIndirect, bSize]
      omega
    · obtain ⟨f, hf, rfl⟩ := List.mem_map.1 he
      exact hsize f hf
  · rw [total, archive, List.map_cons, List.sum_cons, hlen, List.map_map]
    exact Nat.le_trans (Nat.le_of_eq (Nat.add_assoc _ _ _).symm) hspace

theorem main_ok (files : List File) (hcount : files.length + 1 < tableSize) (hu : ∀ f ∈ files, f.Usable)
    (hsize : ∀ f ∈ files, f.bytes.length ≤ maxFile * bSize)
    (hspace : nMeta + need (16 * (files.length + 2)) +
      (files.map fun f => need f.bytes.length).sum ≤ fsSize) :
    ∃ m, main files = .ok m ∧ Finished m files := by
  rcases main_finishes hcount with hok | ⟨-, hfull⟩
  · exact hok
  · exact absurd ⟨hu, fits_archive hcount hsize hspace⟩ hfull

def readme : File := ⟨[82], some [⟨[97, 98, 99], by decide⟩], by decide⟩

def letters : List File :=
  (List.finRange 30).map fun k : Fin 30 =>
    ⟨[UInt8.ofNat (65 + k.val)], some [], by revert k; decide⟩

end Xv6.Mkfs
