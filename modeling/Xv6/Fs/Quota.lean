import Xv6.Fs.Contents
import Mathlib.Data.Finset.Card

namespace Xv6.Fs
open Lib Function
set_option autoImplicit true

/-- A transaction, with the block numbers given to `log_write` so far. -/
structure Tx where
  fs : St
  log : List Nat

namespace Tx

def begin (fs : St) : Tx := ⟨fs, []⟩

def logWrite (t : Tx) (n : Nat) (blk : Block) : Tx := ⟨t.fs.setBlock n blk, t.log ++ [n]⟩

def bzero (t : Tx) (b : Nat) : Tx := t.logWrite b fun _ => 0

def balloc (t : Tx) : Except Fault (Tx × Nat) :=
  match t.fs.findFree with
  | some b =>
    let bp := t.fs.blocks (t.fs.sb.bblock b)
    .ok (bzero (t.logWrite (t.fs.sb.bblock b) (setBit bp (b % bpb))) b, b)
  | none => .error (.panic "balloc: out of blocks")

def iupdate (t : Tx) (i : Nat) (ip : Inode) : Tx :=
  t.logWrite (t.fs.sb.iblock i) (writeInode (t.fs.blocks (t.fs.sb.iblock i)) (i % ipb) ip)

def addrOf (t : Tx) (ip : Inode) (k : Fin (nDirect + 1)) : Except Fault (Tx × Inode × Nat) :=
  if ip.addrs k = 0 then do
    let (t, b) ← balloc t
    .ok (t, { ip with addrs := update ip.addrs k b }, b)
  else .ok (t, ip, ip.addrs k)

def bmap (t : Tx) (ip : Inode) (bn : Nat) : Except Fault (Tx × Inode × Nat) :=
  if h : bn < nDirect then addrOf t ip ⟨bn, Nat.lt_succ_of_lt h⟩
  else if bn - nDirect < nIndirect then do
    let (t, ip, addr) ← addrOf t ip (Fin.last nDirect)
    if getWord (t.fs.blocks addr) (bn - nDirect) = 0 then do
      let (t, b) ← balloc t
      .ok (t.logWrite addr (putWord (t.fs.blocks addr) (bn - nDirect) b), ip, b)
    else .ok (t, ip, getWord (t.fs.blocks addr) (bn - nDirect))
  else .error (.panic "bmap: out of range")

def writeLoop : Nat → Tx → Inode → (Nat → UInt8) → Nat → Nat → Except Fault (Tx × Inode)
  | 0, t, ip, _, _, _ => .ok (t, ip)
  | fuel + 1, t, ip, src, off, n =>
    if n = 0 then .ok (t, ip)
    else do
      let (t, ip, a) ← bmap t ip (off / bSize)
      let m := min n (bSize - off % bSize)
      writeLoop fuel (t.logWrite a (memmove (t.fs.blocks a) (off % bSize) m src)) ip
        (fun k => src (m + k)) (off + m) (n - m)

def writei (devsw : Devsw) (t : Tx) (i : Nat) (ip : Inode) (src : Nat → UInt8)
    (off n : UInt32) : Except Fault (Tx × Inode × Int) :=
  if ip.type = tDev then .ok (t, ip, devResult devsw ip n.toNat)
  else if ip.size < off.toNat ∨ off + n < off then .ok (t, ip, -1)
  else if maxFile * bSize < (off + n).toNat then .ok (t, ip, -1)
  else do
    let (t, ip) ← writeLoop n.toNat t ip src off.toNat n.toNat
    if 0 < n.toNat ∧ ip.size < (off + n).toNat then
      let ip := { ip with size := (off + n).toNat }
      .ok (iupdate t i ip, ip, n.toNat)
    else .ok (t, ip, n.toNat)

/-- What is left of a result without the log. -/
def erase (r : Except Fault (Tx × α)) : Except Fault (St × α) :=
  r.map fun x => (x.1.fs, x.2)

section Erase
variable {t t' : Tx} {ip ip' : Inode}

theorem erase_ok (t : Tx) (a : α) : erase (.ok (t, a)) = .ok (t.fs, a) := rfl

theorem erase_ite (c : Prop) [Decidable c] (x y : Except Fault (Tx × α)) :
    erase (if c then x else y) = if c then erase x else erase y := by
  split
  · rfl
  · rfl

theorem erase_balloc (t : Tx) : erase (balloc t) = Fs.balloc t.fs := by
  rw [balloc, Fs.balloc]
  cases t.fs.findFree with
  | none => rfl
  | some b => rfl

theorem erase_addrOf (t : Tx) (ip : Inode) (k : Fin (nDirect + 1)) :
    erase (addrOf t ip k) = Fs.addrOf t.fs ip k := by
  rw [addrOf, Fs.addrOf, ← erase_balloc]
  split
  · cases balloc t with
    | error e => rfl
    | ok r => rfl
  · rfl

theorem erase_bmap (t : Tx) (ip : Inode) (bn : Nat) : erase (bmap t ip bn) = Fs.bmap t.fs ip bn := by
  rw [bmap, Fs.bmap]
  split
  · exact erase_addrOf t ip _
  split
  · rw [← erase_addrOf]
    cases addrOf t ip (Fin.last nDirect) with
    | error e => rfl
    | ok r =>
      obtain ⟨t₁, ip₁, addr⟩ := r
      rw [erase_ok, ok_bind, ok_bind]
      dsimp only
      rw [erase_ite, ← erase_balloc]
      congr 1
      cases balloc t₁ with
      | error e => rfl
      | ok r => rfl
  · rfl

theorem erase_writeLoop (fuel : Nat) (t : Tx) (ip : Inode) (src : Nat → UInt8) (off n : Nat) :
    erase (writeLoop fuel t ip src off n) = Fs.writeLoop fuel t.fs ip src off n := by
  induction fuel generalizing t ip src off n with
  | zero => rfl
  | succ fuel ih =>
    rw [writeLoop, Fs.writeLoop, ← erase_bmap]
    split
    · rfl
    · cases bmap t ip (off / bSize) with
      | error e => rfl
      | ok r => exact ih ..

/-- The log is the only difference between the two models of `writei`. -/
theorem erase_writei (devsw : Devsw) (t : Tx) (i : Nat) (ip : Inode) (src : Nat → UInt8)
    (off n : UInt32) : erase (writei devsw t i ip src off n) = Fs.writei devsw t.fs i ip src off n := by
  rw [writei, Fs.writei, ← erase_writeLoop]
  split
  · rfl
  split
  · rfl
  split
  · rfl
  cases writeLoop n.toNat t ip src off.toNat n.toNat with
  | error e => rfl
  | ok r =>
    obtain ⟨t₁, ip₁⟩ := r
    exact erase_ite ..

theorem bmap_fs (h : bmap t ip bn = .ok (t', ip', a)) : Fs.bmap t.fs ip bn = .ok (t'.fs, ip', a) := by
  rw [← erase_bmap, h]
  rfl

theorem addrOf_fs (h : addrOf t ip k = .ok (t', ip', a)) :
    Fs.addrOf t.fs ip k = .ok (t'.fs, ip', a) := by
  rw [← erase_addrOf, h]
  rfl

end Erase

/-- The indirect block of an inode and the bit map block for it. -/
def indirect (sb : Superblock) (ip : Inode) : Finset Nat :=
  if ip.addrs (Fin.last nDirect) = 0 then ∅
  else {ip.addrs (Fin.last nDirect), sb.bblock (ip.addrs (Fin.last nDirect))}

/-- What has been logged since `t` is in `D`. -/
def Within (t t' : Tx) (D : Finset Nat) : Prop :=
  ∀ x ∈ t'.log, x ∈ t.log ∨ x ∈ D

section Log
variable {t t₁ t' : Tx} {ip ip₁ ip' : Inode} {f : Nat → Option Inode} {i a b bn : Nat}
  {D D' : Finset Nat}

theorem Within.trans (h : Within t t₁ D) (h' : Within t₁ t' D') : Within t t' (D ∪ D') := by
  intro x hx
  rcases h' x hx with hx | hx
  · rcases h x hx with hx | hx
    · exact .inl hx
    · exact .inr (Finset.mem_union_left _ hx)
  · exact .inr (Finset.mem_union_right _ hx)

theorem Within.mono (h : Within t t' D) (hD : D ⊆ D') : Within t t' D' :=
  fun x hx => (h x hx).imp_right fun hx => hD hx

theorem Within.refl (t : Tx) (D : Finset Nat) : Within t t D :=
  fun _ hx => .inl hx

theorem Within.logWrite (t : Tx) (n : Nat) (blk : Block) : Within t (t.logWrite n blk) {n} := by
  intro x hx
  rw [Finset.mem_singleton]
  simpa only [Tx.logWrite, List.mem_append, List.mem_singleton] using hx

theorem Within.iupdate (t : Tx) (i : Nat) (ip : Inode) :
    Within t (t.iupdate i ip) {t.fs.sb.iblock i} :=
  .logWrite t _ _

theorem balloc_within (h : balloc t = .ok (t', b)) : Within t t' {b, t.fs.sb.bblock b} := by
  rw [balloc] at h
  split at h
  · next b' hb =>
    obtain ⟨rfl, rfl⟩ := Prod.mk.inj (Except.ok.inj h)
    apply ((Within.logWrite t _ _).trans (.logWrite _ b' _)).mono
    intro x hx
    simp only [Finset.mem_union, Finset.mem_insert, Finset.mem_singleton] at hx ⊢
    exact hx.symm
  · cases h

theorem addrOf_within (h : addrOf t ip k = .ok (t', ip', a)) :
    Within t t' {a, t.fs.sb.bblock a} := by
  rw [addrOf] at h
  split at h
  · obtain ⟨⟨t₁, b⟩, hb, h⟩ := bind_ok h
    cases h
    exact balloc_within hb
  · cases h
    exact .refl t _

theorem card_indirect_le (sb : Superblock) (ip : Inode) : (indirect sb ip).card ≤ 2 := by
  rw [indirect]
  split
  · exact Nat.zero_le _
  · exact Finset.card_le_two

/-- `bmap` logs what it allocates and its bit map block, and the same for the indirect block. -/
theorem bmap_within (h : Guarded t.fs f) (hi : f i = some ip)
    (ho : bmap t ip bn = .ok (t', ip', a)) :
    Within t t' ({a, t.fs.sb.bblock a} ∪ indirect t.fs.sb ip') := by
  rw [bmap] at ho
  split at ho
  · exact (addrOf_within ho).mono Finset.subset_union_left
  obtain ⟨-, ho⟩ := if_ok ho
  obtain ⟨⟨t₁, ip₁, addr⟩, h₁, ho⟩ := bind_ok ho
  obtain ⟨hg, rfl, hz⟩ := addrOf_grows h hi _ (addrOf_fs h₁)
  have hind : indirect t.fs.sb ip₁ =
      {ip₁.addrs (Fin.last nDirect), t.fs.sb.bblock (ip₁.addrs (Fin.last nDirect))} := if_neg hz
  have hfirst : Within t t₁ (indirect t.fs.sb ip₁) := by
    rw [hind]
    exact addrOf_within h₁
  dsimp only at ho
  split at ho
  · obtain ⟨⟨t₂, b⟩, h₂, ho⟩ := bind_ok ho
    cases ho
    have hsecond := balloc_within h₂
    rw [hg.sb] at hsecond
    have hlast : {ip'.addrs (Fin.last nDirect)} ⊆ indirect t.fs.sb ip' := by
      rw [hind, Finset.singleton_subset_iff]
      exact Finset.mem_insert_self _ _
    apply ((hfirst.trans hsecond).trans (.logWrite t₂ _ _)).mono
    apply Finset.union_subset (Finset.union_subset _ _)
    · exact Finset.Subset.trans hlast Finset.subset_union_right
    · exact Finset.subset_union_right
    · exact Finset.subset_union_left
  · cases ho
    exact hfirst.mono Finset.subset_union_right

theorem bmap_same (hbn : bn < maxFile) (hz : slotAddr t.fs.blocks ip (slot bn) ≠ 0) :
    bmap t ip bn = .ok (t, ip, slotAddr t.fs.blocks ip (slot bn)) := by
  have haddr (k : Fin (nDirect + 1)) (hk : ip.addrs k ≠ 0) :
      addrOf t ip k = .ok (t, ip, ip.addrs k) := by
    rw [addrOf, if_neg hk]
  rw [bmap]
  split
  · next hd =>
    rw [slotAddr_direct _ _ hd] at hz ⊢
    exact haddr _ hz
  · next hd =>
    have hlt : bn - nDirect < nIndirect := by
      simp only [maxFile] at hbn
      omega
    have hlast := last_ne_zero hd hz
    rw [slotAddr_entry _ _ hd hlt hlast] at hz ⊢
    rw [if_pos hlt, haddr _ hlast, ok_bind]
    dsimp only
    rw [if_neg hz]

theorem indirect_mono (sb : Superblock) (h : ip.addrs (Fin.last nDirect) ≠ 0 →
    ip'.addrs (Fin.last nDirect) = ip.addrs (Fin.last nDirect)) :
    indirect sb ip ⊆ indirect sb ip' := by
  by_cases hz : ip.addrs (Fin.last nDirect) = 0
  · rw [indirect, if_pos hz]
    exact Finset.empty_subset _
  · rw [indirect, indirect, h hz]

structure Round (t t' : Tx) (f : Nat → Option Inode) (i : Nat) (ip ip' : Inode) (D : Finset Nat) :
    Prop where
  guarded : Guarded t'.fs (update f i (some ip'))
  sb : t'.fs.sb = t.fs.sb
  last : ip.addrs (Fin.last nDirect) ≠ 0 → ip'.addrs (Fin.last nDirect) = ip.addrs (Fin.last nDirect)
  within : Within t t' (D ∪ indirect t.fs.sb ip')

theorem Round.trans (h : Round t t₁ f i ip ip₁ D)
    (h' : Round t₁ t' (update f i (some ip₁)) i ip₁ ip' D') :
    Round t t' f i ip ip' (D ∪ D') := by
  have hlast (hz : ip.addrs (Fin.last nDirect) ≠ 0) :
      ip'.addrs (Fin.last nDirect) = ip.addrs (Fin.last nDirect) := by
    rw [h'.last (by rwa [h.last hz]), h.last hz]
  have hwithin := h'.within
  rw [h.sb] at hwithin
  refine ⟨?_, h'.sb.trans h.sb, hlast, (h.within.trans hwithin).mono ?_⟩
  · have hg := h'.guarded
    rwa [update_idem] at hg
  · apply Finset.union_subset (Finset.union_subset _ _) (Finset.union_subset _ _)
    · exact Finset.Subset.trans Finset.subset_union_left Finset.subset_union_left
    · exact Finset.Subset.trans (indirect_mono _ h'.last) Finset.subset_union_right
    · exact Finset.Subset.trans Finset.subset_union_right Finset.subset_union_left
    · exact Finset.subset_union_right

theorem Round.refl (h : Guarded t.fs f) (hi : f i = some ip) : Round t t f i ip ip ∅ := by
  refine ⟨?_, rfl, fun _ => rfl, .refl t _⟩
  rwa [← hi, update_eq_self]

/-- A round of `writei` logs two blocks besides the indirect block, one if its block is there. -/
theorem round_logs (src : Nat → UInt8) (h : Guarded t.fs f) (hi : f i = some ip)
    (ho : bmap t ip (off / bSize) = .ok (t₁, ip₁, a)) (hm : m ≤ bSize - off % bSize)
    (ht : t' = t₁.logWrite a (memmove (t₁.fs.blocks a) (off % bSize) m src)) :
    ∃ D, Round t t' f i ip ip₁ D ∧ D.card ≤ 2 ∧
      (off / bSize < maxFile → Present t.fs.blocks ip off → D.card ≤ 1) := by
  have hfills : Fills t.fs t'.fs f i ip ip₁ off m src := by
    rw [ht]
    exact round_fills h hi (bmap_fs ho) hm rfl
  have hlast (hz : ip.addrs (Fin.last nDirect) ≠ 0) :
      ip₁.addrs (Fin.last nDirect) = ip.addrs (Fin.last nDirect) := by
    have hmine := hfills.mine nDirect
    rw [slotAddr_last, slotAddr_last] at hmine
    exact hmine hz
  have hround (D : Finset Nat) (hD : Within t t' (D ∪ indirect t.fs.sb ip₁)) :
      Round t t' f i ip ip₁ D := ⟨hfills.guarded, hfills.sb, hlast, hD⟩
  by_cases hp : off / bSize < maxFile ∧ Present t.fs.blocks ip off
  · have hsame := bmap_same hp.1 hp.2
    rw [ho] at hsame
    cases hsame
    refine ⟨{slotAddr t.fs.blocks ip (slot (off / bSize))}, hround _ ?_, ?_, fun _ _ => ?_⟩
    · rw [ht]
      exact (Within.logWrite t _ _).mono Finset.subset_union_left
    · rw [Finset.card_singleton]
      decide
    · rw [Finset.card_singleton]
  · refine ⟨{a, t.fs.sb.bblock a}, hround _ ?_, Finset.card_le_two, fun h₁ h₂ => absurd ⟨h₁, h₂⟩ hp⟩
    rw [ht]
    apply ((bmap_within h hi ho).trans (.logWrite t₁ a _)).mono
    apply Finset.union_subset (Finset.Subset.refl _)
    rw [Finset.singleton_subset_iff]
    exact Finset.mem_union_left _ (Finset.mem_insert_self _ _)

theorem writeLoop_logs (h : Guarded t.fs f) (hi : f i = some ip) (hoff : off % bSize = 0 ∨ n = 0)
    (hn : n ≤ bSize * k) (ho : writeLoop fuel t ip src off n = .ok (t', ip')) :
    ∃ D, Round t t' f i ip ip' D ∧ D.card ≤ 2 * k := by
  induction fuel generalizing t f ip src off n k with
  | zero =>
    cases ho
    exact ⟨∅, .refl h hi, Nat.zero_le _⟩
  | succ fuel ih =>
    rw [writeLoop] at ho
    split at ho
    · cases ho
      exact ⟨∅, .refl h hi, Nat.zero_le _⟩
    · next hz =>
      obtain ⟨⟨t₁, ip₁, a⟩, hb, ho⟩ := bind_ok ho
      obtain ⟨D, hD, hcard, -⟩ := round_logs src h hi hb
        (Nat.min_le_right n (bSize - off % bSize)) rfl
      obtain ⟨k, rfl⟩ := Nat.exists_eq_succ_of_ne_zero (n := k) (by rintro rfl; omega)
      obtain ⟨D', hD', hcard'⟩ := ih (k := k) hD.guarded (update_self ..)
        (by simp only [bSize] at hoff ⊢; omega) (by simp only [bSize] at hn hoff ⊢; omega) ho
      refine ⟨D ∪ D', hD.trans hD', ?_⟩
      have hunion := Finset.card_union_le D D'
      omega

theorem writeLoop_logs_within (h : Guarded t.fs f) (hi : f i = some ip)
    (hp : Present t.fs.blocks ip off) (hn : n ≤ bSize * k)
    (ho : writeLoop fuel t ip src off n = .ok (t', ip')) :
    ∃ D, Round t t' f i ip ip' D ∧ D.card ≤ 1 + 2 * k := by
  cases fuel with
  | zero =>
    cases ho
    exact ⟨∅, .refl h hi, Nat.zero_le _⟩
  | succ fuel =>
    rw [writeLoop] at ho
    split at ho
    · cases ho
      exact ⟨∅, .refl h hi, Nat.zero_le _⟩
    · next hz =>
      obtain ⟨⟨t₁, ip₁, a⟩, hb, ho⟩ := bind_ok ho
      have hbn : off / bSize < maxFile := by
        have hlt := hp.lt
        simp only [maxFile, nDirect, nIndirect, bSize] at hlt ⊢
        omega
      obtain ⟨D, hD, -, hcard⟩ := round_logs src h hi hb
        (Nat.min_le_right n (bSize - off % bSize)) rfl
      obtain ⟨D', hD', hcard'⟩ := writeLoop_logs (k := k) hD.guarded (update_self ..)
        (by simp only [bSize]; omega) (by omega) ho
      refine ⟨D ∪ D', hD.trans hD', ?_⟩
      have hunion := Finset.card_union_le D D'
      have hone := hcard hbn hp
      omega

theorem card_log_le {fs : St} (h : Within (begin fs) t' D) : t'.log.toFinset.card ≤ D.card := by
  apply Finset.card_le_card
  intro x hx
  rcases h x (List.mem_toFinset.1 hx) with hx | hx
  · cases hx
  · exact hx

theorem chunk_logs (h : Intact t.fs) (hi : t.fs.icache i = some ip) (hoff : off ≤ ip.size)
    (hn : n ≤ 1536) (ho : writeLoop n t ip src off n = .ok (t', ip')) :
    ∃ D, Round t t' t.fs.inodes i ip ip' D ∧ D.card ≤ 7 := by
  have hi' : t.fs.inodes i = some ip := by
    rw [St.inodes, hi]
  by_cases hz : off % bSize = 0
  · obtain ⟨D, hD, hcard⟩ := writeLoop_logs (k := 3) h.guarded hi' (.inl hz) hn ho
    exact ⟨D, hD, by omega⟩
  · have hp : Present t.fs.blocks ip off := by
      have hbefore := h.covered i ip hi' (off - 1) (by simp only [bSize] at hz; omega)
      have hdiv : (off - 1) / bSize = off / bSize := by
        simp only [bSize] at hz ⊢
        omega
      rwa [Present, hdiv] at hbefore
    exact writeLoop_logs_within (k := 3) h.guarded hi' hp hn ho

end Log

/-- One transaction of `filewrite` logs at most `MAXOPBLOCKS` blocks. -/
theorem writei_quota {devsw : Devsw} {fs : St} {off n : UInt32} (h : Intact fs)
    (hi : fs.icache i = some ip) (ht : ip.type ≠ tDev) (hoff : off.toNat ≤ ip.size)
    (hn : n.toNat ≤ (maxOpBlocks - 1 - 1 - 2) / 2 * 512)
    (ho : writei devsw (begin fs) i ip src off n = .ok (t', ip', r)) :
    Fs.writei devsw fs i ip src off n = .ok (t'.fs, ip', r) ∧
      t'.log.toFinset.card ≤ maxOpBlocks := by
  have herase := erase_writei devsw (begin fs) i ip src off n
  rw [ho] at herase
  refine ⟨herase.symm, ?_⟩
  rw [writei, if_neg ht] at ho
  split at ho
  · cases ho
    exact Nat.zero_le _
  split at ho
  · cases ho
    exact Nat.zero_le _
  · obtain ⟨⟨t₁, ip₁⟩, hw, ho⟩ := bind_ok ho
    obtain ⟨D, hD, hcard⟩ := chunk_logs h hi hoff hn hw
    have hwithin : Within (begin fs) t₁ (D ∪ indirect fs.sb ip₁) := hD.within
    have hind := card_indirect_le fs.sb ip₁
    have hunion := Finset.card_union_le D (indirect fs.sb ip₁)
    dsimp only at ho
    split at ho
    · cases ho
      have hone := Finset.card_union_le (D ∪ indirect fs.sb ip₁) {t₁.fs.sb.iblock i}
      rw [Finset.card_singleton] at hone
      refine Nat.le_trans (card_log_le (hwithin.trans (.iupdate t₁ i _))) (Nat.le_trans hone ?_)
      simp only [maxOpBlocks]
      omega
    · cases ho
      exact Nat.le_trans (card_log_le hwithin) (by simp only [maxOpBlocks]; omega)

theorem writei_quota_newFile : ∃ fs ip t ip', Intact fs ∧ fs.icache 1 = some ip ∧
    writei (fun _ => none) (begin fs) 1 ip (fun _ => 7) 0 1536 = .ok (t, ip', 1536) ∧
    t.log.toFinset.card ≤ maxOpBlocks := by
  obtain ⟨fs, hfs, hs⟩ := (Option.any_eq_true _ _).1
    (show (runLegal (Fs.step fun _ => none) Fs.legal smallFs [.ialloc 2, .ilock 1]).any
      (fun fs => (fs.icache 1).any fun ip => ip.type = 2 ∧
        (writei (fun _ => none) (begin fs) 1 ip (fun _ => 7) 0 1536).toOption.any
          fun r => r.2.2 = 1536) = true by decide +kernel)
  obtain ⟨ip, hi, hip⟩ := (Option.any_eq_true _ _).1 hs
  obtain ⟨ht, hrun⟩ := of_decide_eq_true hip
  obtain ⟨⟨t, ip', r⟩, ho, hr⟩ := (Option.any_eq_true _ _).1 hrun
  obtain rfl : r = 1536 := of_decide_eq_true hr
  have ho := ok_of_toOption ho
  have hw : WellFormed fs := (exec_of_runLegal _ _ _ _ hfs).invariant wellFormed_smallFs
    fun _ _ _ hw hl ho => hw.step hl ho
  have htype : ip.type ≠ tDev := by
    rw [ht]
    decide
  exact ⟨fs, ip, t, ip', hw.intact, hi, ho,
    (writei_quota hw.intact hi htype (Nat.zero_le _) (by decide) ho).2⟩

end Tx
end Xv6.Fs
