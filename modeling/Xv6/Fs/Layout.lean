import Xv6.Param
import Xv6.Lib.Bits
import Mathlib.Logic.Function.Basic

namespace Xv6.Fs
open Lib
set_option autoImplicit true

abbrev nDirect : Nat := 12
abbrev nIndirect : Nat := bSize / 4
abbrev maxFile : Nat := nDirect + nIndirect

abbrev ipb : Nat := bSize / 64

abbrev bpb : Nat := bSize * 8

abbrev tDev : Nat := 3

structure Superblock where
  size : Nat
  nblocks : Nat
  ninodes : Nat
  inodestart : Nat
  bmapstart : Nat

def Superblock.iblock (sb : Superblock) (i : Nat) : Nat := i / ipb + sb.inodestart

def Superblock.bblock (sb : Superblock) (b : Nat) : Nat := b / bpb + sb.bmapstart

def Superblock.dataStart (sb : Superblock) : Nat := sb.size - sb.nblocks

/-- The disk layout of fs.h: inode blocks, free bit map, data blocks. -/
structure Superblock.Ok (sb : Superblock) : Prop where
  size_lt : sb.size < 2 ^ 31
  iblock_lt : ∀ i, i < sb.ninodes → sb.iblock i < sb.bmapstart
  bblock_lt : ∀ b, b < sb.size → sb.bblock b < sb.dataStart

theorem Superblock.bmapstart_le_bblock (sb : Superblock) (b : Nat) :
    sb.bmapstart ≤ sb.bblock b :=
  Nat.le_add_left _ _

structure Inode where
  type : Nat
  major : Nat
  minor : Nat
  nlink : Nat
  size : Nat
  addrs : Fin (nDirect + 1) → Nat

structure Inode.Fits (ip : Inode) : Prop where
  type : ip.type < 2 ^ 16
  major : ip.major < 2 ^ 16
  minor : ip.minor < 2 ^ 16
  nlink : ip.nlink < 2 ^ 16
  size : ip.size < 2 ^ 32
  addrs : ∀ k, ip.addrs k < 2 ^ 32

def readInode (blk : Block) (k : Nat) : Inode where
  type := getLE blk (64 * k) 2
  major := getLE blk (64 * k + 2) 2
  minor := getLE blk (64 * k + 4) 2
  nlink := getLE blk (64 * k + 6) 2
  size := getWord blk (16 * k + 2)
  addrs := fun j => getWord blk (16 * k + 3 + j)

def writeInode (blk : Block) (k : Nat) (ip : Inode) : Block :=
  let blk := putLE blk (64 * k) 2 ip.type
  let blk := putLE blk (64 * k + 2) 2 ip.major
  let blk := putLE blk (64 * k + 4) 2 ip.minor
  let blk := putLE blk (64 * k + 6) 2 ip.nlink
  putWords blk (16 * k + 2) (ip.size :: List.ofFn ip.addrs)

theorem fits_readInode (blk : Block) (k : Nat) : (readInode blk k).Fits where
  type := getLE_lt _ _ 2
  major := getLE_lt _ _ 2
  minor := getLE_lt _ _ 2
  nlink := getLE_lt _ _ 2
  size := getWord_lt _ _
  addrs := fun _ => getWord_lt _ _

theorem readInode_writeInode (blk : Block) (hk : k < ipb) (h : ip.Fits) :
    readInode (writeInode blk k ip) k = ip := by
  simp only [ipb, bSize] at hk
  have hlen : (ip.size :: List.ofFn ip.addrs).length = 14 := by simp
  have hfits : ∀ v ∈ ip.size :: List.ofFn ip.addrs, v < 2 ^ 32 := by
    intro v hv
    rcases List.mem_cons.1 hv with rfl | hv
    · exact h.size
    · obtain ⟨j, rfl⟩ := List.mem_ofFn.1 hv
      exact h.addrs j
  have hhalf (b : Block) (off w : Nat) (ho : off + w ≤ 64 * k + 8) :
      getLE (putWords b (16 * k + 2) (ip.size :: List.ofFn ip.addrs)) off w = getLE b off w :=
    getLE_putWords_disjoint b _ (by omega)
  obtain ⟨type, major, minor, nlink, size, addrs⟩ := ip
  simp only [readInode, writeInode, Inode.mk.injEq]
  refine ⟨?_, ?_, ?_, ?_, ?_, ?_⟩
  · rw [hhalf _ _ _ (by omega), getLE_putLE_disjoint _ (by omega),
      getLE_putLE_disjoint _ (by omega), getLE_putLE_disjoint _ (by omega),
      getLE_putLE_same _ (by simp only [bSize]; omega) h.type]
  · rw [hhalf _ _ _ (by omega), getLE_putLE_disjoint _ (by omega),
      getLE_putLE_disjoint _ (by omega),
      getLE_putLE_same _ (by simp only [bSize]; omega) h.major]
  · rw [hhalf _ _ _ (by omega), getLE_putLE_disjoint _ (by omega),
      getLE_putLE_same _ (by simp only [bSize]; omega) h.minor]
  · rw [hhalf _ _ _ (by omega), getLE_putLE_same _ (by simp only [bSize]; omega) h.nlink]
  · have hw := getWord_putWords (k := 16 * k + 2)
      (putLE (putLE (putLE (putLE blk (64 * k) 2 type) (64 * k + 2) 2 major) (64 * k + 4) 2
        minor) (64 * k + 6) 2 nlink) (size :: List.ofFn addrs)
      (by simp only [bSize, hlen]; omega) hfits (i := 0) (by rw [hlen]; omega)
    simpa only [Nat.add_zero, List.getElem_cons_zero] using hw
  · funext j
    have hj : j.val < 13 := j.isLt
    have hw := getWord_putWords (k := 16 * k + 2)
      (putLE (putLE (putLE (putLE blk (64 * k) 2 type) (64 * k + 2) 2 major) (64 * k + 4) 2
        minor) (64 * k + 6) 2 nlink) (size :: List.ofFn addrs)
      (by simp only [bSize, hlen]; omega) hfits (i := j + 1) (by rw [hlen]; omega)
    rw [show 16 * k + 3 + j = 16 * k + 2 + (j + 1) by omega, hw, List.getElem_cons_succ,
      List.getElem_ofFn]

theorem readInode_writeInode_ne (blk : Block) (h : j ≠ k) :
    readInode (writeInode blk k ip) j = readInode blk j := by
  have hlen : (ip.size :: List.ofFn ip.addrs).length = 14 := by simp
  have hget (off w : Nat) (ho : off + w ≤ 64 * k ∨ 64 * k + 64 ≤ off) :
      getLE (writeInode blk k ip) off w = getLE blk off w := by
    rw [writeInode, getLE_putWords_disjoint _ _ (by rw [hlen]; omega),
      getLE_putLE_disjoint _ (by omega), getLE_putLE_disjoint _ (by omega),
      getLE_putLE_disjoint _ (by omega), getLE_putLE_disjoint _ (by omega)]
  simp only [readInode, getWord, Inode.mk.injEq]
  refine ⟨hget _ _ (by omega), hget _ _ (by omega), hget _ _ (by omega), hget _ _ (by omega),
    hget _ _ (by omega), ?_⟩
  funext i
  have hi : i.val < 13 := i.isLt
  exact hget _ _ (by omega)

/-- The disk as fs.c sees it, and the inodes with a valid copy in the cache. -/
structure St where
  sb : Superblock
  blocks : Nat → Block
  icache : Nat → Option Inode

namespace St

def setBlock (s : St) (n : Nat) (blk : Block) : St :=
  { s with blocks := Function.update s.blocks n blk }

def bit (s : St) (b : Nat) : Bool := bitAt (s.blocks (s.sb.bblock b)) (b % bpb)

def dinode (s : St) (i : Nat) : Inode := readInode (s.blocks (s.sb.iblock i)) (i % ipb)

def cache (s : St) (i : Nat) (ip : Inode) : St :=
  { s with icache := Function.update s.icache i (some ip) }

def uncache (s : St) (i : Nat) : St := { s with icache := Function.update s.icache i none }

end St

end Xv6.Fs
