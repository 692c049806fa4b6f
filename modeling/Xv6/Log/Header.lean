import Xv6.Store

namespace Xv6
open Lib
set_option autoImplicit true

/-- `struct log` as `initlog` fills it from the superblock. -/
structure LogArea where
  start : Nat
  size : Nat
  deriving DecidableEq

def LogArea.block (L : LogArea) (tail : Nat) : Nat := L.start + tail + 1

def LogArea.Mem (L : LogArea) (b : Nat) : Prop := L.start ≤ b ∧ b < L.start + L.size

instance (L : LogArea) (b : Nat) : Decidable (L.Mem b) :=
  inferInstanceAs (Decidable (_ ∧ _))

theorem LogArea.mem_start (L : LogArea) (h : 0 < L.size) : L.Mem L.start :=
  ⟨Nat.le_refl _, by omega⟩

theorem LogArea.mem_block (L : LogArea) (h : tail + 1 < L.size) : L.Mem (L.block tail) := by
  simp only [Mem, block]
  omega

theorem LogArea.block_ne_start (L : LogArea) (tail : Nat) : L.block tail ≠ L.start := by
  simp only [block]
  omega

theorem LogArea.block_inj (L : LogArea) : L.block i = L.block j ↔ i = j := by
  simp only [block]
  omega

/-- `read_head`: the count is an `int`, so with its top bit set nothing is copied. -/
def readHead (blk : Block) : List Nat :=
  (List.range (if getWord blk 0 < 2 ^ 31 then getWord blk 0 else 0)).map
    fun i => getWord blk (i + 1)

/-- `write_head` stores count and block numbers over the old header. -/
def writeHead (lh : List Nat) (blk : Block) : Block :=
  putWords (putWord blk 0 lh.length) 1 lh

theorem readHead_eq_nil (blk : Block) (h : getWord blk 0 = 0) : readHead blk = [] := by
  simp [readHead, h]

theorem readHead_writeHead (blk : Block) (hn : lh.length ≤ logSize)
    (hb : ∀ b ∈ lh, b < 2 ^ 32) : readHead (writeHead lh blk) = lh := by
  simp only [logSize, maxOpBlocks] at hn
  have h₀ : getWord (writeHead lh blk) 0 = lh.length := by
    rw [writeHead, getWord_putWords_before _ _ (by omega),
      getWord_putWord_same _ (by decide) (by omega)]
  have h₁ : lh.length < 2 ^ 31 := by omega
  simp only [readHead, h₀, h₁, ↓reduceIte]
  apply List.ext_getElem
  · simp only [List.length_map, List.length_range]
  · intro i hi hi'
    rw [List.getElem_map, List.getElem_range, Nat.add_comm, writeHead,
      getWord_putWords _ _ (by simp only [bSize]; omega) hb hi']

end Xv6
