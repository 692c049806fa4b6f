import Xv6.Mkfs.View

namespace Xv6.Mkfs
open Lib Fs Function
open Sys (rootIno tDir tFile slash)
open Kernel (direntBytes)
set_option autoImplicit true

/-- The types and contents of the inodes from number 1 on. -/
abbrev Archive := List (Nat × List UInt8)

/-- The blocks that a file of `n` bytes takes, the indirect block among them. -/
def need (n : Nat) : Nat := blockCount n + if blockCount n ≤ nDirect then 0 else 1

def total (A : Archive) : Nat := (A.map fun e => need e.2.length).sum

variable {m m' : Image} {s s' : St} {ip ip' : Inode} {A : Archive} {e : Nat × List UInt8}
  {i k n t : Nat} {p bs : List UInt8}

theorem mem_slots_zero : l ∈ slots 0 n ↔ ∃ bn, bn < blockCount n ∧ l ∈ pathTo bn := by
  rw [slots, Finset.mem_biUnion]
  simp only [Finset.mem_Ico, blockCount, bSize]
  constructor
  · rintro ⟨k, ⟨-, hk⟩, hl⟩
    exact ⟨k / 512, by omega, hl⟩
  · rintro ⟨bn, hbn, hl⟩
    refine ⟨bn * 512, by omega, ?_⟩
    rwa [Nat.mul_div_cancel _ (by decide)]

theorem slots_zero (n : Nat) : slots 0 n = Finset.range (need n) := by
  ext l
  rw [mem_slots_zero, Finset.mem_range, need]
  simp only [pathTo, nDirect]
  generalize blockCount n = B
  constructor
  · rintro ⟨bn, hbn, hl⟩
    split at hl
    · rw [Finset.mem_singleton] at hl
      omega
    · rw [Finset.mem_insert, Finset.mem_singleton] at hl
      rw [if_neg (by omega)]
      omega
  · intro hl
    by_cases hd : l < 12
    · refine ⟨l, ?_, ?_⟩
      · split at hl <;> omega
      · rw [if_pos hd]
        exact Finset.mem_singleton_self l
    · by_cases hB : B ≤ 12
      · rw [if_pos hB] at hl
        omega
      · rw [if_neg hB] at hl
        by_cases hi : l = 12
        · refine ⟨12, by omega, ?_⟩
          rw [if_neg (by omega), hi]
          exact Finset.mem_insert_self _ _
        · refine ⟨l - 1, by omega, ?_⟩
          rw [if_neg (by omega), Finset.mem_insert, Finset.mem_singleton]
          omega

theorem card_slots (n : Nat) : (slots 0 n).card = need n := by
  rw [slots_zero, Finset.card_range]

theorem need_mono (h : n ≤ n') : need n ≤ need n' := by
  rw [← card_slots, ← card_slots]
  exact Finset.card_le_card (slots_mono (Nat.le_refl 0) (by omega))

theorem total_append (A B : Archive) : total (A ++ B) = total A + total B := by
  rw [total, List.map_append, List.sum_append]
  rfl

theorem total_set (h : A[k]? = some e) (e' : Nat × List UInt8) :
    total (A.set k e') + need e.2.length = total A + need e'.2.length := by
  induction A generalizing k with
  | nil => cases h
  | cons a A ih =>
    cases k with
    | zero =>
      cases h
      simp only [List.set_cons_zero, total, List.map_cons, List.sum_cons]
      omega
    | succ k =>
      have hrest := ih h
      simp only [List.set_cons_succ, total, List.map_cons, List.sum_cons] at hrest ⊢
      omega

def Image.disk (m : Image) : St := m.view fun _ => none

/-- Inode `ip` is a member of the archive. -/
structure Entry (s : St) (ip : Inode) (e : Nat × List UInt8) : Prop where
  type : ip.type = e.1
  nlink : ip.nlink = 1
  content : content s ip = e.2
  owned : Owned s ip (slots 0 e.2.length)
  padded : Padded s ip e.2.length

theorem Entry.size (h : Entry s ip e) : ip.size = e.2.length := by
  rw [← h.content, length_content]

theorem Entry.present (h : Entry s ip e) (hk : k < e.2.length) : Present s.blocks ip k := by
  apply (h.owned _).2
  exact pathTo_subset (Nat.zero_le k) (by omega) (slot_mem_pathTo _)

theorem Entry.congr (h : Entry s ip e)
    (hslot : ∀ l, slotAddr s'.blocks ip l = slotAddr s.blocks ip l)
    (hbyte : ∀ k, Present s.blocks ip k → fileByte s'.blocks ip k = fileByte s.blocks ip k) :
    Entry s' ip e := by
  constructor
  · exact h.type
  · exact h.nlink
  · rw [← h.content]
    apply List.map_congr_left
    intro k hk
    rw [List.mem_range, h.size] at hk
    exact hbyte k (h.present hk)
  · intro l
    rw [hslot]
    exact h.owned l
  · intro k hk hp
    rw [Present, hslot] at hp
    rw [hbyte k hp]
    exact h.padded k hk hp

/-- The image holds the archive and nothing else. -/
structure Made (m : Image) (A : Archive) : Prop where
  fresh : Fresh m
  wellFormed : WellFormed m.disk
  freeinode : m.freeinode = A.length + 1
  entry : ∀ k e, A[k]? = some e → ∃ ip, m.disk.allocated (k + 1) = some ip ∧ Entry m.disk ip e
  vacant : ∀ i, A.length < i → m.disk.allocated i = none
  space : m.freeblock = nMeta + total A

theorem Fresh.card_free (h : Fresh m) : m.disk.free.card = fsSize - m.freeblock := by
  have hfree : m.disk.free = Finset.Ico m.freeblock fsSize := by
    ext b
    rw [mem_free, Finset.mem_Ico]
    show b < fsSize ∧ m.disk.bit b = false ↔ _
    constructor
    · rintro ⟨hlt, hb⟩
      rw [Image.disk, h.bit (Nat.lt_trans hlt (by decide)), decide_eq_false_iff_not] at hb
      exact ⟨Nat.le_of_not_lt hb, hlt⟩
    · rintro ⟨hle, hlt⟩
      rw [Image.disk, h.bit (Nat.lt_trans hlt (by decide)), decide_eq_false_iff_not]
      exact ⟨hlt, Nat.not_lt_of_le hle⟩
  rw [hfree, Nat.card_Ico]

theorem disk_uncache (m : Image) (i : Nat) : m.disk.uncache i = m.disk := by
  simp only [Image.disk, Image.view, St.uncache, St.mk.injEq, true_and]
  exact update_eq_self i _

theorem fits_newInode (h : t < 2 ^ 16) : (newInode t).Fits :=
  ⟨h, by simp [newInode], by simp [newInode], by simp [newInode], by simp [newInode],
    by simp [newInode]⟩

theorem entry_newInode (s : St) (t : Nat) : Entry s (newInode t) (t, []) := by
  have hslot (l : Nat) : slotAddr s.blocks (newInode t) l = 0 := by
    simp only [slotAddr, newInode, true_or, ↓reduceIte, dite_eq_ite, ite_self]
  constructor
  · rfl
  · rfl
  · rfl
  · intro l
    rw [hslot]
    simp [slots]
  · intro k _ hp
    exact absurd (hslot _) hp

theorem Made.lt (h : Made m A) (hk : A[k]? = some e) : k + 1 < tableSize := by
  obtain ⟨ip, hip, -⟩ := h.entry k e hk
  exact (allocated_eq_some.1 hip).1

theorem Made.ialloc (h : Made m A) (hlt : A.length + 1 < tableSize) (ht : t ≠ 0)
    (ht' : t < 2 ^ 16) :
    ∃ m', ialloc m t = .ok (m', A.length + 1) ∧ Made m' (A ++ [(t, [])]) := by
  have hfresh : Fresh { m with freeinode := m.freeinode + 1 } := by
    obtain ⟨h₁, h₂, h₃, h₄, h₅⟩ := h.fresh
    exact ⟨h₁, h₂, h₃, h₄, h₅⟩
  obtain ⟨m', hw, hfol, hfb, hview⟩ := hfresh.winode hlt (newInode t)
  have hdisk : m'.disk = iupdate m.disk (A.length + 1) (newInode t) := hview _
  have hnone := h.vacant (A.length + 1) (Nat.lt_succ_self _)
  have hall : m'.disk.allocated =
      update m.disk.allocated (A.length + 1) (some (newInode t)) := by
    have htype : (newInode t).type ≠ 0 := ht
    rw [hdisk, allocated_iupdate (fits_newInode ht') hlt, if_neg htype]
  have hguarded := h.wellFormed.sound.guarded
  refine ⟨m', ?_, hfol.fresh, ?_, ?_, ?_, ?_, ?_⟩
  · rw [Mkfs.ialloc, h.freeinode]
    rw [h.freeinode] at hw
    rw [hw]
    rfl
  · have hr := h.wellFormed.replace (newInode t) hlt
      (by
        intro ip hip
        cases hnone.symm.trans hip) (fits_newInode ht') rfl rfl
    rwa [← hdisk, disk_uncache] at hr
  · rw [hfol.freeinode, List.length_append, List.length_singleton]
    exact congrArg (· + 1) h.freeinode
  · intro k e hk
    rw [hall]
    by_cases hkl : k < A.length
    · rw [List.getElem?_append_left hkl] at hk
      obtain ⟨ip, hip, he⟩ := h.entry k e hk
      refine ⟨ip, by rw [update_of_ne (by omega), hip], ?_⟩
      rw [hdisk]
      exact he.congr (hguarded.slotAddr_iupdate hlt hip)
        fun j hp => (hguarded.iupdate_byte hlt hip hp).2
    · obtain rfl : k = A.length := by
        obtain ⟨hk, -⟩ := List.getElem?_eq_some_iff.1 hk
        rw [List.length_append, List.length_singleton] at hk
        omega
      rw [List.getElem?_concat_length] at hk
      cases hk
      exact ⟨newInode t, update_self .., entry_newInode _ t⟩
  · intro i hi
    rw [List.length_append, List.length_singleton] at hi
    rw [hall, update_of_ne (by omega)]
    exact h.vacant i (by omega)
  · have hempty : total [(t, [])] = 0 := by
      show need 0 + 0 = 0
      decide
    rw [hfb, total_append, hempty]
    exact h.space

theorem Made.locked (h : Made m A) (hip : m.disk.allocated i = some ip) :
    WellFormed (m.disk.cache i ip) := by
  obtain ⟨hlt, ht, rfl⟩ := allocated_eq_some.1 hip
  exact h.wellFormed.ilock hlt ht

theorem map_getD_self (p : List UInt8) : (List.range p.length).map (fun k => p.getD k 0) = p := by
  apply List.ext_getElem
  · rw [List.length_map, List.length_range]
  · intro k h₁ h₂
    rw [List.getElem_map, List.getElem_range, List.getD_eq_getElem _ _ h₂]

section Append
variable {m₁ : Image} {ip₁ : Inode}

/-- A member of the archive before and after the loop of `iappend`. -/
structure Appending (m m₁ : Image) (i : Nat) (ip ip₁ : Inode) (e : Nat × List UInt8)
    (p : List UInt8) : Prop where
  wellFormed : WellFormed (m.disk.cache i ip)
  entry : Entry m.disk ip e
  type : e.1 ≠ tDev
  nonempty : p ≠ []
  follows : Follows m m₁
  loop : writeLoop p.length (m.disk.cache i ip) ip (fun j => p.getD j 0) e.2.length p.length =
    .ok (m₁.view (m.disk.cache i ip).icache, ip₁)

/-- What `iappend` writes back. -/
def grown (ip₁ : Inode) (e : Nat × List UInt8) (p : List UInt8) : Inode :=
  { ip₁ with size := e.2.length + p.length }

theorem Appending.cached (_h : Appending m m₁ i ip ip₁ e p) :
    (m.disk.cache i ip).icache i = some ip :=
  update_self ..

theorem Appending.inodes (h : Appending m m₁ i ip ip₁ e p) :
    (m.disk.cache i ip).inodes = m.disk.allocated ∧ m.disk.allocated i = some ip :=
  ⟨h.wellFormed.inodes_eq, h.wellFormed.cache i ip h.cached⟩

theorem Appending.fills (h : Appending m m₁ i ip ip₁ e p) :
    Fills (m.disk.cache i ip) (m₁.view (m.disk.cache i ip).icache) m.disk.allocated i ip ip₁
      e.2.length p.length fun j => p.getD j 0 := by
  obtain ⟨hin, hip⟩ := h.inodes
  have hg := h.wellFormed.intact.guarded
  rw [hin] at hg
  exact writeLoop_fills hg hip (Nat.le_refl _) h.loop

theorem Appending.inum (h : Appending m m₁ i ip ip₁ e p) :
    i < (m₁.view (m.disk.cache i ip).icache).sb.ninodes :=
  (allocated_eq_some.1 h.inodes.2).1

theorem Appending.length_le (h : Appending m m₁ i ip ip₁ e p) :
    e.2.length + p.length ≤ maxFile * bSize := by
  have hpos := List.length_pos_of_ne_nil h.nonempty
  have hlast := (h.fills.filled (e.2.length + p.length - 1) (by omega) (by omega)).1.lt
  omega

theorem Appending.writei (h : Appending m m₁ i ip ip₁ e p) (devsw : Devsw) :
    Fs.writei devsw (m.disk.cache i ip) i ip (fun j => p.getD j 0) (UInt32.ofNat e.2.length)
      (UInt32.ofNat p.length) = .ok (iupdate (m₁.view (m.disk.cache i ip).icache) i
        (grown ip₁ e p), grown ip₁ e p, p.length) := by
  have hmax := h.length_le
  have hpos := List.length_pos_of_ne_nil h.nonempty
  have hbound : maxFile * bSize < 2 ^ 32 := by decide
  have hoff : (UInt32.ofNat e.2.length).toNat = e.2.length :=
    UInt32.toNat_ofNat_of_lt' (Nat.lt_of_le_of_lt (by omega) hbound)
  have hn : (UInt32.ofNat p.length).toNat = p.length :=
    UInt32.toNat_ofNat_of_lt' (Nat.lt_of_le_of_lt (by omega) hbound)
  have hadd : (UInt32.ofNat e.2.length + UInt32.ofNat p.length).toNat = e.2.length + p.length := by
    rw [UInt32.toNat_add, hoff, hn]
    exact Nat.mod_eq_of_lt (Nat.lt_of_le_of_lt hmax hbound)
  have hsize := h.entry.size
  have hsize₁ : ip₁.size = e.2.length := by rw [h.fills.fields, hsize]
  have htype : ip.type ≠ tDev := by
    rw [h.entry.type]
    exact h.type
  have hov : ¬(ip.size < (UInt32.ofNat e.2.length).toNat ∨
      UInt32.ofNat e.2.length + UInt32.ofNat p.length < UInt32.ofNat e.2.length) := by
    rw [UInt32.lt_iff_toNat_lt, hadd, hoff]
    omega
  rw [Fs.writei, if_neg htype, if_neg hov, hadd, if_neg (Nat.not_lt.2 hmax), hoff, hn, h.loop,
    ok_bind]
  dsimp only
  rw [if_pos (by omega)]
  rfl

theorem Appending.account (h : Appending m m₁ i ip ip₁ e p) :
    Account (m.disk.cache i ip) (m₁.view (m.disk.cache i ip).icache) ip ip₁ (slots 0 e.2.length)
      (slots 0 (e.2.length + p.length)) ∧
    Padded (m₁.view (m.disk.cache i ip).icache) ip₁ (e.2.length + p.length) := by
  obtain ⟨hin, hip⟩ := h.inodes
  have hg := h.wellFormed.intact.guarded
  rw [hin] at hg
  have hacc := Owned.writeLoop hg hip h.entry.owned h.entry.padded (Nat.le_refl _) h.loop
  have hslots := slots_append 0 e.2.length p.length
  rw [Nat.zero_add] at hslots
  rwa [← hslots] at hacc

variable (h : Appending m m₁ i ip ip₁ e p)
  (hview : ∀ c, m'.view c = iupdate (m₁.view c) i (grown ip₁ e p))
include h hview

theorem Appending.wellFormed' : WellFormed m'.disk := by
  have hw := (h.wellFormed.writei h.cached (h.writei fun _ => none)).recycle i
  rw [← hview] at hw
  have hdisk : ((m'.view (m.disk.cache i ip).icache).cache i (grown ip₁ e p)).uncache i =
      m'.disk := by
    simp only [Image.disk, Image.view, St.cache, St.uncache, St.mk.injEq, true_and]
    rw [update_idem, update_idem]
    exact update_eq_self i _
  rwa [hdisk] at hw

theorem Appending.allocated :
    m'.disk.allocated = update m.disk.allocated i (some (grown ip₁ e p)) := by
  obtain ⟨hin, -⟩ := h.inodes
  have hf := h.fills
  rw [← hin] at hf
  have heq : ((iupdate (m₁.view (m.disk.cache i ip).icache) i (grown ip₁ e p)).cache i
      (grown ip₁ e p)).inodes = _ := hf.inodes_eq (.inr rfl)
  have hw := h.wellFormed.writei h.cached (h.writei fun _ => none)
  rw [hw.inodes_eq, ← hview, hin] at heq
  exact heq

theorem Appending.other (hj : m.disk.allocated j = some jp) (hji : j ≠ i)
    (he : Entry m.disk jp e') : Entry m'.disk jp e' := by
  have hf := h.fills
  have hjp : update m.disk.allocated i (some ip₁) j = some jp := by
    rw [update_of_ne hji, hj]
  have hlt := h.inum
  have hslot (l : Nat) : slotAddr m'.disk.blocks jp l = slotAddr m.disk.blocks jp l := by
    have heq : slotAddr (iupdate (m₁.view (m.disk.cache i ip).icache) i (grown ip₁ e p)).blocks jp l
        = _ := hf.guarded.slotAddr_iupdate hlt hjp l
    rw [← hview, hf.others j jp hji hj] at heq
    exact heq
  apply he.congr hslot
  intro k hp
  have hp₁ : Present (m₁.view (m.disk.cache i ip).icache).blocks jp k := by
    rw [Present, hf.others j jp hji hj]
    exact hp
  have hb : fileByte (iupdate (m₁.view (m.disk.cache i ip).icache) i (grown ip₁ e p)).blocks jp k =
      _ := (hf.guarded.iupdate_byte hlt hjp hp₁).2
  rw [← hview, hf.foreign j jp hji hj k hp] at hb
  exact hb

theorem Appending.mine : Entry m'.disk (grown ip₁ e p) (e.1, e.2 ++ p) := by
  have hf := h.fills
  obtain ⟨hacc, hpad⟩ := h.account
  have hlt := h.inum
  have hself : update m.disk.allocated i (some ip₁) i = some ip₁ := update_self ..
  have hslot (l : Nat) : slotAddr m'.disk.blocks (grown ip₁ e p) l =
      slotAddr (m₁.view (m.disk.cache i ip).icache).blocks ip₁ l := by
    have heq : slotAddr (iupdate (m₁.view (m.disk.cache i ip).icache) i (grown ip₁ e p)).blocks ip₁ l
        = _ := hf.guarded.slotAddr_iupdate hlt hself l
    rw [← hview] at heq
    rw [← heq]
    exact slotAddr_setFields _ rfl l
  have hlen : (e.2 ++ p).length = e.2.length + p.length := List.length_append
  constructor
  · show ip₁.type = e.1
    rw [hf.fields, ← h.entry.type]
  · show ip₁.nlink = 1
    rw [hf.fields, ← h.entry.nlink]
  · have hsize := h.entry.size
    have hin := hf
    rw [← h.inodes.1] at hin
    have hgrown : grown ip₁ e p = { ip₁ with size := max ip.size (e.2.length + p.length) } := by
      rw [hsize, Nat.max_eq_right (Nat.le_add_right _ _)]
      rfl
    have hw := (hin.written h.wellFormed.intact h.cached (Nat.le_of_eq hsize.symm) hgrown
      (.inr rfl)).content
    rw [map_getD_self, ← hview] at hw
    have hold : content (m.disk.cache i ip) ip = e.2 := h.entry.content
    rw [hold, overwrite, List.take_length, List.drop_eq_nil_of_le (Nat.le_add_right _ _),
      List.append_nil] at hw
    exact hw
  · intro l
    rw [hlen, hslot]
    exact hacc.owned l
  · intro k hk hp
    rw [hlen] at hk
    have hp₁ : Present (m₁.view (m.disk.cache i ip).icache).blocks ip₁ k := by
      rw [Present, hslot] at hp
      exact hp
    have hb : fileByte (iupdate (m₁.view (m.disk.cache i ip).icache) i (grown ip₁ e p)).blocks ip₁ k =
        _ := (hf.guarded.iupdate_byte hlt hself hp₁).2
    rw [← hview, hpad k hk hp₁] at hb
    rw [← hb, fileByte, fileByte]
    exact congrArg (fun a => byteAt (m'.disk.blocks a) (k % bSize)) (slotAddr_setFields _ rfl _)

end Append

theorem Made.appended (h : Made m A) (hk : A[k]? = some e)
    (ha : Appending m m₁ (k + 1) ip ip₁ e p)
    (hview : ∀ c, m'.view c = iupdate (m₁.view c) (k + 1) (grown ip₁ e p))
    (hfol : Follows m₁ m') (hfb : m'.freeblock = m₁.freeblock) :
    Made m' (A.set k (e.1, e.2 ++ p)) := by
  have hall := ha.allocated hview
  have hklt : k < A.length := (List.getElem?_eq_some_iff.1 hk).1
  refine ⟨hfol.fresh, ha.wellFormed' hview, ?_, ?_, ?_, ?_⟩
  · rw [hfol.freeinode, ha.follows.freeinode, List.length_set]
    exact h.freeinode
  · intro j e' hj
    rw [hall]
    by_cases hjk : j = k
    · subst hjk
      rw [List.getElem?_set_self hklt] at hj
      cases hj
      exact ⟨_, update_self .., ha.mine hview⟩
    · rw [List.getElem?_set_ne (Ne.symm hjk)] at hj
      obtain ⟨jp, hjp, he⟩ := h.entry j e' hj
      refine ⟨jp, by rw [update_of_ne (by omega), hjp], ?_⟩
      exact ha.other hview hjp (by omega) he
  · intro i hi
    rw [List.length_set] at hi
    rw [hall, update_of_ne (by omega)]
    exact h.vacant i hi
  · have hcons := ha.account.1.conserve
    rw [card_slots, card_slots] at hcons
    have hfree : (m.disk.cache (k + 1) ip).free.card = fsSize - m.freeblock := h.fresh.card_free
    have hfree₁ : (m₁.view (m.disk.cache (k + 1) ip).icache).free.card = fsSize - m₁.freeblock :=
      ha.follows.fresh.card_free
    have hset := total_set hk (e.1, e.2 ++ p)
    rw [List.length_append] at hset
    have hupper := h.fresh.upper
    have hupper₁ := ha.follows.fresh.upper
    have hspace := h.space
    rw [hfree, hfree₁] at hcons
    omega

/-- There is space for an archive, and no member is too large. -/
def Fits (A : Archive) : Prop :=
  (∀ e ∈ A, e.2.length ≤ maxFile * bSize) ∧ nMeta + total A ≤ fsSize

theorem Made.enough (h : Made m A) (hk : A[k]? = some e) (he : Entry m.disk ip e)
    (hfits : Fits (A.set k (e.1, e.2 ++ p))) :
    Enough m.disk ip (slots e.2.length p.length) := by
  have hmissing : missing m.disk ip (slots e.2.length p.length) =
      slots e.2.length p.length \ slots 0 e.2.length := by
    ext l
    rw [mem_missing, Finset.mem_sdiff, ← he.owned l, not_not]
  have hslots := slots_append 0 e.2.length p.length
  rw [Nat.zero_add] at hslots
  have hcard := Finset.card_sdiff_add_card (slots e.2.length p.length) (slots 0 e.2.length)
  rw [Finset.union_comm, ← hslots, card_slots, card_slots] at hcard
  have hset := total_set hk (e.1, e.2 ++ p)
  rw [List.length_append] at hset
  have hspace := h.space
  have hfit := hfits.2
  rw [Enough, hmissing, h.fresh.card_free]
  omega

theorem Made.iappend (h : Made m A) (hk : A[k]? = some e) (ht : e.1 ≠ tDev) (hp : p ≠ []) :
    (∃ m', iappend m (k + 1) p = .ok m' ∧ Made m' (A.set k (e.1, e.2 ++ p))) ∨
      (∃ a, iappend m (k + 1) p = .error a) ∧ ¬Fits (A.set k (e.1, e.2 ++ p)) := by
  obtain ⟨ip, hip, he⟩ := h.entry k e hk
  have hlt := h.lt hk
  have hwf := h.locked hip
  have hin : (m.disk.cache (k + 1) ip).inodes = m.disk.allocated := hwf.inodes_eq
  have hg := hwf.intact.guarded
  rw [hin] at hg
  have hread : Mkfs.rinode m (k + 1) = .ok ip := by
    rw [h.fresh.rinode hlt fun _ => none]
    exact congrArg Except.ok (allocated_eq_some.1 hip).2.2
  rw [Mkfs.iappend, hread, ok_bind, he.size]
  rcases Fresh.appendLoop (fun j => p.getD j 0) e.2.length h.fresh hg hip
    (Nat.le_refl p.length) with ⟨m₁, ip₁, hap, hfol, hl⟩ | ⟨a, e', hap, hl⟩
  · left
    obtain ⟨m', hw, hfol', hfb, hview⟩ := hfol.fresh.winode hlt (grown ip₁ e p)
    refine ⟨m', ?_, h.appended hk ⟨hwf, he, ht, hp, hfol, hl⟩ hview hfol' hfb⟩
    rw [hap, ok_bind]
    exact hw
  · right
    refine ⟨⟨a, by rw [hap]; rfl⟩, ?_⟩
    intro hfits
    have hklt : k < A.length := (List.getElem?_eq_some_iff.1 hk).1
    have hmax := hfits.1 (e.1, e.2 ++ p) (List.mem_set hklt _)
    rw [List.length_append] at hmax
    have henough : Enough (m.disk.cache (k + 1) ip) ip (slots e.2.length p.length) :=
      h.enough hk he hfits
    obtain ⟨s', ip', hok, -⟩ := henough.writeLoop hg hip hmax (Finset.Subset.refl _)
      (Nat.le_refl _) fun j => p.getD j 0
    cases hl.symm.trans hok

end Xv6.Mkfs
