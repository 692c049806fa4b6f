import Xv6.Fs.Shared
import Xv6.Fs.Space

namespace Xv6.Fs.Shared
open Lib Function
set_option autoImplicit true

/-- The rounds of a `filewrite` that nobody comes in between. -/
def rounds (devsw : Devsw) (p : Nat) : Nat → St → Except Fault St
  | 0, _ => .error .blocked
  | fuel + 1, s =>
    match s.cur p with
    | none => .ok s
    | some _ => do rounds devsw p fuel (← step devsw s (p, .round))

def filewrite (devsw : Devsw) (fuel : Nat) (s : St) (p : Nat) (data : List UInt8) : Except Fault St := do
  let s ← step devsw s (p, .write data)
  rounds devsw p fuel s

/-- How many of `n` bytes at `off` fit: all, or the whole chunks that do. -/
def fit (off n : Nat) : Nat :=
  if off + n ≤ maxFile * bSize then n else (maxFile * bSize - off) / maxChunk * maxChunk

theorem fit_le (h : off ≤ maxFile * bSize) (n : Nat) :
    off + fit off n ≤ maxFile * bSize ∧ fit off n ≤ n := by
  simp only [fit, maxFile, nDirect, nIndirect, bSize, maxChunk, maxOpBlocks] at h ⊢
  split <;> omega

theorem fit_step (h : off + min n maxChunk ≤ maxFile * bSize) :
    fit off n = min n maxChunk + fit (off + min n maxChunk) (n - min n maxChunk) := by
  simp only [fit, maxFile, nDirect, nIndirect, bSize, maxChunk, maxOpBlocks] at h ⊢
  split <;> split <;> omega

theorem fit_stop (h : maxFile * bSize < off + min n maxChunk) : fit off n = 0 := by
  simp only [fit, maxFile, nDirect, nIndirect, bSize, maxChunk, maxOpBlocks] at h ⊢
  split <;> omega

/-- `new` has been written at `f->off`, and no other file has changed. -/
structure Wrote (s s' : St) (new : List UInt8) : Prop where
  ready : Ready s'
  ino : s'.ino = s.ino
  bytes : s'.bytes = overwrite s.bytes s.off.toNat new
  off : s'.off.toNat = s.off.toNat + new.length
  others : ∀ j jp, j ≠ s.ino → s.fs.inodes j = some jp →
    s'.fs.inodes j = some jp ∧ content s'.fs jp = content s.fs jp

section Rounds
variable {s s₁ s' : St} {p : Nat} {ip : Inode} {x : Cursor} {data : List UInt8} {S : Finset Nat}
  {devsw : Devsw}

theorem Wrote.append (h : Wrote s s₁ a) (h' : Wrote s₁ s' b) (hoff : s.off.toNat ≤ s.bytes.length) :
    Wrote s s' (a ++ b) := by
  constructor
  · exact h'.ready
  · exact h'.ino.trans h.ino
  · rw [h'.bytes, h.bytes, h.off, overwrite_overwrite hoff]
  · rw [h'.off, h.off, List.length_append, Nat.add_assoc]
  · intro j jp hj hjp
    obtain ⟨hi, hc⟩ := h.others j jp hj hjp
    obtain ⟨hi', hc'⟩ := h'.others j jp (by rwa [h.ino]) hi
    exact ⟨hi', hc'.trans hc⟩

theorem Wrote.leave (h : Ready s) (p i n : Nat) : Wrote s (s.leave p i n) [] := by
  constructor
  · exact ⟨h.intact, h.inode, h.off⟩
  · rfl
  · simp only [overwrite, List.append_nil, List.length_nil, Nat.add_zero, List.take_append_drop]
    rfl
  · rfl
  · exact fun j jp _ hj => ⟨hj, rfl⟩

theorem Ready.off_le_size (h : Ready s) (hi : s.fs.icache s.ino = some ip) :
    s.off.toNat ≤ ip.size := by
  have hoff := h.off
  rwa [bytes_eq hi, length_content] at hoff

theorem Ready.off_le (h : Ready s) : s.off.toNat ≤ maxFile * bSize := by
  obtain ⟨ip, hi, -⟩ := h.inode
  exact Nat.le_trans (h.off_le_size hi) (h.intact.size_le (by rw [Fs.St.inodes, hi]))

theorem length_piece_bounds (hlt : x.i < data.length) :
    0 < (piece x data).length ∧ (piece x data).length ≤ 1536 := by
  rw [length_piece]
  simp only [maxChunk, maxOpBlocks]
  omega

theorem toNat_length_piece (hlt : x.i < data.length) :
    (UInt32.ofNat (piece x data).length).toNat = (piece x data).length := by
  apply UInt32.toNat_ofNat_of_lt'
  exact Nat.lt_of_le_of_lt (length_piece_bounds hlt).2 (by decide)

theorem chunk_refused (h : Ready s) (hi : s.fs.icache s.ino = some ip) (ht : ip.type ≠ tDev)
    (hlt : x.i < data.length) (hmax : maxFile * bSize < s.off.toNat + (piece x data).length) :
    chunk devsw s p x data ip = .ok (s.leave p x.i data.length) := by
  have hsize := h.off_le_size hi
  have hle : ip.size ≤ maxFile * bSize := h.intact.size_le (by rw [Fs.St.inodes, hi])
  obtain ⟨hpos, hm⟩ := length_piece_bounds hlt
  have hword := toNat_length_piece hlt
  rw [chunk, ← length_piece]
  have hadd : (s.off + UInt32.ofNat (piece x data).length).toNat =
      s.off.toNat + (piece x data).length := by
    rw [UInt32.toNat_add, hword]
    simp only [maxFile, nDirect, nIndirect, bSize] at hle
    omega
  have hov : ¬(ip.size < s.off.toNat ∨ s.off + UInt32.ofNat (piece x data).length < s.off) := by
    rw [UInt32.lt_iff_toNat_lt, hadd]
    omega
  rw [writei, if_neg ht, if_neg hov, hadd, if_pos hmax, ok_bind]
  dsimp only
  rw [if_pos (by decide), settle_same hi]
  rfl

theorem chunk_wrote (h : Ready s) (hi : s.fs.icache s.ino = some ip) (ht : ip.type ≠ tDev)
    (hlt : x.i < data.length) (hmax : s.off.toNat + (piece x data).length ≤ maxFile * bSize)
    (he : Enough s.fs ip S) (hS : slots s.off.toNat (piece x data).length ⊆ S) :
    ∃ s' ip', chunk devsw s p x data ip = .ok s' ∧ Wrote s s' (piece x data) ∧
      s'.fs.icache s'.ino = some ip' ∧ Enough s'.fs ip' S ∧ s'.calls = s.calls ∧
      s'.cur = update s.cur p (some { x with i := x.i + (piece x data).length }) := by
  have hsize := h.off_le_size hi
  have hword := toNat_length_piece hlt
  obtain ⟨hpos, hm⟩ := length_piece_bounds hlt
  obtain ⟨fs, ip', hw, he'⟩ := Enough.writei h.intact hi ht he (n := UInt32.ofNat (piece x data).length)
    hsize (by rwa [hword]) (by rwa [hword]) devsw fun k => data.getD (x.i + k) 0
  have ho : chunk devsw s p x data ip =
      .ok ((s.settle fs ip' (piece x data).length).proceed p x (piece x data).length) := by
    rw [chunk, ← length_piece, hw, ok_bind, hword]
    dsimp only
    rw [if_neg (by omega), if_neg (fun h => h rfl)]
  rcases chunk_cases h hi ht hlt ho with ⟨-, hbad⟩ | ⟨hready, hbytes, hoff, hcalls, hcur⟩
  · exact absurd hbad (Nat.not_lt.2 hmax)
  rcases writei_cases h.intact hi ht hw with ⟨hneg, -⟩ | ⟨-, -, hwr⟩
  · rw [hword] at hneg
    omega
  · exact ⟨_, ip', ho, ⟨hready, rfl, hbytes, hoff, hwr.others⟩, hwr.cached, he', hcalls, hcur⟩

/-- The rounds of a call end, and have written what fits of its data. -/
def Finishes (devsw : Devsw) (fuel : Nat) (s : St) (p : Nat) (x : Cursor) (data : List UInt8) : Prop :=
  ∃ s', rounds devsw p fuel s = .ok s' ∧
    Wrote s s' ((data.drop x.i).take (fit s.off.toNat (data.length - x.i))) ∧ s'.cur p = none ∧
    s'.ret p = some (if x.i + fit s.off.toNat (data.length - x.i) = data.length then
      (data.length : Int) else -1)

theorem Finishes.leave (h : Ready s) (hx : s.cur p = some x)
    (hz : fit s.off.toNat (data.length - x.i) = 0)
    (hs : step devsw s (p, .round) = .ok (s.leave p x.i data.length)) :
    Finishes devsw (fuel + 2) s p x data := by
  refine ⟨s.leave p x.i data.length, ?_, ?_, update_self .., ?_⟩
  · rw [rounds, hx]
    dsimp only
    rw [hs, ok_bind, rounds]
    simp only [St.leave, update_self]
  · rw [hz, List.take_zero]
    exact .leave h p x.i data.length
  · rw [hz]
    exact update_self ..

theorem Finishes.proceed (h : Ready s) (hx : s.cur p = some x)
    (hs : step devsw s (p, .round) = .ok s₁) (hw : Wrote s s₁ (piece x data))
    (hfit : fit s.off.toNat (data.length - x.i) = (piece x data).length +
      fit s₁.off.toNat (data.length - (x.i + (piece x data).length)))
    (hrest : Finishes devsw fuel s₁ p { x with i := x.i + (piece x data).length } data) :
    Finishes devsw (fuel + 1) s p x data := by
  obtain ⟨s', hr, hw', hcur, hret⟩ := hrest
  refine ⟨s', ?_, ?_, hcur, ?_⟩
  · rw [rounds, hx]
    dsimp only
    rw [hs, ok_bind, hr]
  · rw [hfit, List.take_add, take_piece, List.drop_drop]
    exact hw.append hw' h.off
  · rw [hret, hfit, ← Nat.add_assoc]

theorem rounds_end (h : Ready s) (hi : s.fs.icache s.ino = some ip) (he : Enough s.fs ip S)
    (hx : s.cur p = some x) (hd : s.calls[x.call]? = some data) (hle : x.i ≤ data.length)
    (hS : slots s.off.toNat (fit s.off.toNat (data.length - x.i)) ⊆ S)
    (hfuel : data.length - x.i + 1 < fuel) : Finishes devsw fuel s p x data := by
  induction fuel generalizing s ip x with
  | zero => omega
  | succ fuel ih =>
    obtain ⟨ip', hi', ht⟩ := h.inode
    obtain rfl := Option.some.inj (hi.symm.trans hi')
    obtain ⟨fuel, rfl⟩ := Nat.exists_eq_succ_of_ne_zero (n := fuel) (by omega)
    by_cases hlt : x.i < data.length
    · have hstep : step devsw s (p, .round) = chunk devsw s p x data ip := by
        simp only [step, hx, hi, hd, if_pos hlt]
      have hpos := (length_piece_bounds hlt).1
      have hlen := length_piece x data
      by_cases hmax : s.off.toNat + (piece x data).length ≤ maxFile * bSize
      · have hfit : fit s.off.toNat (data.length - x.i) = (piece x data).length +
            fit (s.off.toNat + (piece x data).length)
              (data.length - (x.i + (piece x data).length)) := by
          rw [hlen] at hmax ⊢
          rw [fit_step hmax, ← Nat.sub_sub]
        have hsub : slots s.off.toNat (piece x data).length ⊆ S :=
          Finset.Subset.trans (slots_mono (Nat.le_refl _) (by omega)) hS
        obtain ⟨s₁, ip₁, ho, hw, hi₁, he₁, hcalls, hcur⟩ := chunk_wrote h hi ht hlt hmax he hsub
        rw [← hw.off] at hfit
        have hrest : slots s₁.off.toNat
            (fit s₁.off.toNat (data.length - (x.i + (piece x data).length))) ⊆ S := by
          have hoff := hw.off
          exact Finset.Subset.trans (slots_mono (by omega) (by omega)) hS
        refine Finishes.proceed h hx (hstep.trans ho) hw hfit (ih hw.ready hi₁ he₁ ?_ ?_ ?_ hrest ?_)
        · rw [hcur, update_self]
        · rw [hcalls]
          exact hd
        · show x.i + (piece x data).length ≤ data.length
          omega
        · show data.length - (x.i + (piece x data).length) + 1 < fuel + 1
          omega
      · rw [Nat.not_le] at hmax
        apply Finishes.leave h hx
        · rw [hlen] at hmax
          exact fit_stop hmax
        · rw [hstep]
          exact chunk_refused h hi ht hlt hmax
    · have hz : data.length - x.i = 0 := by omega
      apply Finishes.leave h hx
      · rw [hz]
        exact Nat.le_zero.1 (fit_le h.off_le 0).2
      · simp only [step, hx, hi, hd, if_neg hlt]

end Rounds

/-- `filewrite` writes what one `writei` would, or else the whole chunks that fit. -/
theorem filewrite_chunks {devsw : Devsw} {s : St} {ip : Inode} {p : Nat} {data : List UInt8}
    (h : Ready s) (hi : s.fs.icache s.ino = some ip) (hp : s.cur p = none)
    (he : Enough s.fs ip (slots s.off.toNat (fit s.off.toNat data.length)))
    (hfuel : data.length + 1 < fuel) :
    ∃ s' k, filewrite devsw fuel s p data = .ok s' ∧ s'.cur p = none ∧ k ≤ data.length ∧
      Wrote s s' (data.take k) ∧
      (s.off.toNat + data.length ≤ maxFile * bSize → k = data.length ∧
        s'.ret p = some (data.length : Int) ∧
        ∃ fs ip', writei devsw s.fs s.ino ip (fun k => data.getD k 0) s.off
            (UInt32.ofNat data.length) = .ok (fs, ip', data.length) ∧
          s'.bytes = content (fs.cache s.ino ip') ip' ∧ s'.bytes.length = ip'.size) ∧
      (maxFile * bSize < s.off.toNat + data.length → s'.ret p = some (-1) ∧ 1536 ∣ k ∧
        s.off.toNat + k ≤ maxFile * bSize ∧ maxFile * bSize < s.off.toNat + k + 1536) := by
  have hcall : step devsw s (p, .write data) = .ok (s.call p data) := by
    simp only [step, hp]
  have hready : Ready (s.call p data) := ⟨h.intact, h.inode, h.off⟩
  have hends : Finishes devsw fuel (s.call p data) p ⟨s.calls.length, 0⟩ data := by
    apply rounds_end hready hi he
    · exact update_self ..
    · simp [St.call]
    · exact Nat.zero_le _
    · exact Finset.Subset.refl _
    · exact hfuel
  obtain ⟨s', hr, hw, hcur, hret⟩ := hends
  obtain ⟨hfits, hle⟩ := fit_le h.off_le data.length
  have hw : Wrote s s' (data.take (fit s.off.toNat data.length)) :=
    ⟨hw.ready, hw.ino, hw.bytes, hw.off, hw.others⟩
  have hret : s'.ret p = some (if fit s.off.toNat data.length = data.length then
      data.length else -1 : Int) := by
    rw [hret]
    simp only [Nat.zero_add, Nat.sub_zero]
    rfl
  refine ⟨s', fit s.off.toNat data.length, ?_, hcur, hle, hw, ?_, ?_⟩
  · rw [filewrite, hcall, ok_bind, hr]
  · intro hmax
    have hfit : fit s.off.toNat data.length = data.length := if_pos hmax
    rw [hfit] at he hw hret
    have hword : (UInt32.ofNat data.length).toNat = data.length := by
      apply UInt32.toNat_ofNat_of_lt'
      simp only [maxFile, nDirect, nIndirect, bSize] at hmax
      exact Nat.lt_of_le_of_lt (m := 71680) (by omega) (by decide)
    obtain ⟨ip', hi', ht⟩ := h.inode
    obtain rfl := Option.some.inj (hi.symm.trans hi')
    obtain ⟨fs, ip', hwi, -⟩ := Enough.writei h.intact hi ht he (n := UInt32.ofNat data.length)
      (h.off_le_size hi) (by rwa [hword]) (by rw [hword]) devsw fun k => data.getD k 0
    rcases writei_cases h.intact hi ht hwi with ⟨hneg, -⟩ | ⟨-, -, hwr⟩
    · omega
    have hbytes : s'.bytes = content (fs.cache s.ino ip') ip' := by
      have hdata := map_getD data 0 data.length (by omega)
      simp only [Nat.zero_add] at hdata
      rw [hw.bytes, hwr.content, hword, bytes_eq hi, hdata, List.drop_zero]
    rw [hword] at hwi
    rw [hret, if_pos rfl]
    refine ⟨hfit, rfl, fs, ip', hwi, hbytes, ?_⟩
    rw [hbytes, length_content]
  · intro hmax
    have hfit : fit s.off.toNat data.length =
        (maxFile * bSize - s.off.toNat) / maxChunk * maxChunk := if_neg (Nat.not_le.2 hmax)
    rw [hret, if_neg (by omega)]
    rw [hfit] at hfits ⊢
    refine ⟨rfl, Nat.dvd_mul_left _ _, hfits, ?_⟩
    simp only [maxFile, nDirect, nIndirect, bSize, maxChunk, maxOpBlocks] at hfits ⊢
    omega

theorem filewrite_chunks_newFile : ∃ fs s, Intact fs ∧
    filewrite (fun _ => none) 1542 (opened fs 1) 0 (List.replicate 1540 7) = .ok s ∧
    s.ret 0 = some 1540 ∧ s.off.toNat = 1540 := by
  obtain ⟨fs, hfs, hs⟩ := (Option.any_eq_true _ _).1
    (show (runLegal (Fs.step fun _ => none) Fs.legal smallFs [.ialloc 2, .ilock 1]).any
      (fun fs => (fs.icache 1).any fun ip => ip.type = 2 ∧ Enough fs ip (Finset.range 4)) = true by
        decide +kernel)
  obtain ⟨ip, hi, hip⟩ := (Option.any_eq_true _ _).1 hs
  obtain ⟨ht, he⟩ := of_decide_eq_true hip
  have hw : WellFormed fs := (exec_of_runLegal _ _ _ _ hfs).invariant wellFormed_smallFs
    fun _ _ _ hw hl ho => hw.step hl ho
  have htype : ip.type ≠ tDev := by
    rw [ht]
    decide
  have hready : Ready (opened fs 1) := ⟨hw.intact, ⟨ip, hi, htype⟩, Nat.zero_le _⟩
  have hlen : (List.replicate 1540 (7 : UInt8)).length = 1540 := List.length_replicate
  have hfit : fit 0 1540 = 1540 := if_pos (by decide)
  have hslots : slots 0 1540 ⊆ Finset.range 4 := by
    apply Finset.biUnion_subset.2
    intro k hk
    have hk := (Finset.mem_Ico.1 hk).2
    have hd : k / bSize < nDirect := by
      simp only [bSize, nDirect]
      omega
    rw [pathTo, if_pos hd, Finset.singleton_subset_iff, Finset.mem_range]
    simp only [bSize]
    omega
  obtain ⟨s, k, ho, -, -, hwrote, hall, -⟩ := @filewrite_chunks 1542 (fun _ => none)
    (opened fs 1) ip 0 (List.replicate 1540 7) hready hi rfl (by rw [hlen]; exact hfit.symm ▸ he.mono hslots) (by rw [hlen]; decide)
  rw [hlen] at hall
  obtain ⟨rfl, hret, -⟩ := hall (by show 0 + 1540 ≤ maxFile * bSize; decide)
  refine ⟨fs, s, hw.intact, ho, hret, ?_⟩
  rw [hwrote.off, List.length_take, hlen]
  rfl

end Xv6.Fs.Shared
