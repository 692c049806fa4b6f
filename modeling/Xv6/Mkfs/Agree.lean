import Xv6.Mkfs.Format

namespace Xv6.Mkfs
open Lib Fs
open Fs.Namei (mount bytes Packed Listing named namei ilock)
open Sys (rootIno tDir tFile slash)
set_option autoImplicit true

variable {m m₁ : Image} {ip : Inode} {files : List File} {f : File} {i j k : Nat}
  {name name' : List UInt8}

/-- The arguments of mkfs are files with proper, different names, and have space. -/
structure Acceptable (files : List File) : Prop where
  exist : ∀ f ∈ files, f.data ≠ none
  proper : ∀ f ∈ files, f.target ≠ [] ∧ slash ∉ f.target ∧ f.target ≠ [46] ∧ f.target ≠ [46, 46]
  differ : files.Pairwise fun f g => f.target.take dirSiz ≠ g.target.take dirSiz
  sizes : ∀ f ∈ files, f.bytes.length ≤ maxFile * bSize
  inodes : files.length + 1 < tableSize
  blocks : nMeta + need (16 * (files.length + 2)) +
    (files.map fun f => need f.bytes.length).sum ≤ fsSize

theorem File.nul_target (f : File) : 0 ∉ f.target := by
  rw [File.target]
  split
  · exact fun h => f.nul (List.mem_of_mem_tail h)
  · exact f.nul

theorem File.slash_name (h : slash ∉ f.target) : slash ∉ f.name := by
  rw [File.target] at h
  split at h
  · next hu =>
    cases hn : f.name with
    | nil => exact List.not_mem_nil
    | cons c rest =>
      rw [hn, List.headD_cons] at hu
      rw [hn, List.tail_cons] at h
      rw [List.mem_cons, not_or]
      refine ⟨?_, h⟩
      rw [hu]
      decide
  · exact h

theorem Acceptable.usable (h : Acceptable files) : ∀ f ∈ files, f.Usable :=
  fun f hf => ⟨File.slash_name (h.proper f hf).2.1, h.exist f hf⟩

theorem key_of_nul (h : 0 ∉ name) : key name = name.take dirSiz := by
  rw [key, List.takeWhile_eq_self_iff]
  intro c hc
  exact decide_eq_true fun he => h (he ▸ List.mem_of_mem_take hc)

theorem named_iff (hkey : key name' = name.take dirSiz) (h0 : 0 ∉ target) (hi : i ≠ 0) :
    named name' ⟨i, strncpy dirSiz target⟩ = true ↔ name.take dirSiz = target.take dirSiz := by
  rw [named, decide_eq_true_eq, namecmp_eq_zero, key_strncpy, key_of_nul h0, hkey]
  exact and_iff_right hi

theorem eq_of_take (h : name.take dirSiz = t) (ht : t.length < dirSiz) : name = t := by
  have hlen := congrArg List.length h
  rw [List.length_take] at hlen
  rw [← h, List.take_of_length_le (by omega)]

theorem mem_dents_named (hkey : key name' = name.take dirSiz) (hdot : name ≠ [46])
    (hdots : name ≠ [46, 46]) (hde : de ∈ dents files) (hn : named name' de = true) :
    ∃ k, ∃ h : k < files.length, name.take dirSiz = (files[k]).target.take dirSiz ∧
      de = ⟨k + 2, strncpy dirSiz (files[k]).target⟩ := by
  rw [dents, List.mem_cons, List.mem_cons, List.mem_mapIdx] at hde
  rcases hde with rfl | rfl | ⟨k, hk, rfl⟩
  · rw [named_iff hkey (by decide) (by decide)] at hn
    exact absurd (eq_of_take hn (by decide)) hdot
  · rw [named_iff hkey (by decide) (by decide)] at hn
    exact absurd (eq_of_take hn (by decide)) hdots
  · rw [named_iff hkey (File.nul_target _) (by omega)] at hn
    exact ⟨k, hk, hn, rfl⟩

theorem find_dents (h : Acceptable files) (hj : j < files.length)
    (hkey : key name' = (files[j]).target.take dirSiz) :
    (dents files).find? (named name') = some ⟨j + 2, strncpy dirSiz (files[j]).target⟩ := by
  have hp := h.proper _ (List.getElem_mem hj)
  have hmem : (⟨j + 2, strncpy dirSiz (files[j]).target⟩ : Dirent) ∈ dents files := by
    rw [dents, List.mem_cons, List.mem_cons, List.mem_mapIdx]
    exact .inr (.inr ⟨j, hj, rfl⟩)
  have hnamed : named name' ⟨j + 2, strncpy dirSiz (files[j]).target⟩ = true :=
    (named_iff hkey (File.nul_target _) (by omega)).2 rfl
  cases hfind : (dents files).find? (named name') with
  | none => exact absurd hnamed (by simpa using List.find?_eq_none.1 hfind _ hmem)
  | some de =>
    obtain ⟨k, hk, he, rfl⟩ := mem_dents_named hkey hp.2.2.1 hp.2.2.2
      (List.mem_of_find?_eq_some hfind) (List.find?_some hfind)
    have hkj : k = j := by
      rcases Nat.lt_trichotomy k j with hlt | heq | hlt
      · exact absurd he.symm (List.pairwise_iff_getElem.1 h.differ k j hk hj hlt)
      · exact heq
      · exact absurd he (List.pairwise_iff_getElem.1 h.differ j k hj hk hlt)
    subst hkj
    rfl

theorem Entry.byte (h : Entry s ip e) (hp : Present s.blocks ip k) :
    fileByte s.blocks ip k = e.2.getD k 0 := by
  by_cases hk : k < e.2.length
  · rw [List.getD_eq_getElem?_getD]
    conv_rhs => rw [← h.content]
    rw [getElem?_content, h.size, if_pos hk, Option.getD_some]
  · rw [List.getD_eq_default _ _ (Nat.le_of_not_lt hk)]
    exact h.padded k (Nat.le_of_not_lt hk) hp

theorem Rounding.listing (h : Rounding m₁ ip files) (c : Nat → Option Inode) :
    Listing ⟨sb, (iupdate m₁.disk rootIno (rounded ip)).blocks, c⟩
      (iupdate m₁.disk rootIno (rounded ip)).allocated rootIno (rounded ip) (dents files) := by
  have he := h.other h.root h.entry
  have hlen := length_bytes_dents h.count
  have hslot (l : Nat) : slotAddr (iupdate m₁.disk rootIno (rounded ip)).blocks (rounded ip) l =
      slotAddr (iupdate m₁.disk rootIno (rounded ip)).blocks ip l := slotAddr_setFields _ rfl l
  have hsize := h.rounded_size
  constructor
  · exact ⟨sb_ok, h.guarded.holds, h.guarded.metadata⟩
  · rw [h.allocated]
    exact Function.update_self ..
  · refine ⟨slots 0 (bytes (dents files)).length, fun l => ?_⟩
    rw [hslot]
    exact he.owned l
  · exact h.type
  · exact h.rounded_le
  · rw [hsize]
    simp only [bSize]
    omega
  · exact packed_dents h.count
  · rw [hsize, length_dents]
    simp only [bSize]
    omega
  · intro k hk
    rw [length_dents] at hk
    have hp := he.present (k := k) (by rw [hlen]; exact hk)
    rw [Present, hslot]
    exact hp
  · intro k hp
    rw [Present, hslot] at hp
    rw [fileByte, hslot]
    exact he.byte hp

theorem Rounding.nlink (h : Rounding m₁ ip files) : (rounded ip).nlink ≠ 0 := by
  show ip.nlink ≠ 0
  rw [h.entry.nlink]
  decide

def ballocs : Nat → St → Except Fault (St × List Nat)
  | 0, s => .ok (s, [])
  | n + 1, s => do
    let (s, b) ← Fs.balloc s
    let (s, bs) ← ballocs n s
    .ok (s, b :: bs)

theorem ballocs_free (hok : s.sb.Ok)
    (hmeta : ∀ b, b < s.sb.dataStart → b < s.sb.size → s.bit b = true)
    (ho : ballocs n s = .ok (s', bs)) (hb : b ∈ bs) : InData s.sb b ∧ s.bit b = false := by
  induction n generalizing s bs with
  | zero =>
    cases ho
    cases hb
  | succ n ih =>
    obtain ⟨⟨s₁, b₁⟩, h₁, ho⟩ := bind_ok ho
    obtain ⟨⟨s₂, bs₂⟩, h₂, ho⟩ := bind_ok ho
    cases ho
    obtain ⟨ha, hd⟩ := alloc_of_balloc hok hmeta h₁
    rcases List.mem_cons.1 hb with rfl | hb
    · exact ⟨hd, ha.free⟩
    · have hmeta₁ (b : Nat) (hlow : b < s₁.sb.dataStart) (hlt : b < s₁.sb.size) :
          s₁.bit b = true := by
        rw [ha.sb] at hlow hlt
        rw [ha.bit b hlt, hmeta b hlow hlt]
        rfl
      obtain ⟨hin, hfree⟩ := ih (by rwa [ha.sb]) hmeta₁ h₂ hb
      rw [ha.sb] at hin
      rw [ha.bit b hin.2, Bool.or_eq_false_iff] at hfree
      exact ⟨hin, hfree.1⟩

/-- Every file given is found under its name and reads as it was. -/
def Found (s : St) (f : File) : Prop :=
  ∀ devsw cwd array, ∃ s₁ i s₂ ip,
    namei devsw s cwd (slash :: f.target) array = .ok (s₁, some i) ∧
    ilock s₁ i = .ok (s₂, ip) ∧ ip.type = tFile ∧
    readi devsw s₂ ip 0 (UInt32.ofNat ip.size) = .ok (s₂, ip, f.bytes, f.bytes.length)

def Missing (s : St) (name : List UInt8) : Prop :=
  ∀ devsw cwd array s₁ i, namei devsw s cwd (slash :: name) array ≠ .ok (s₁, some i)

/-- The block holds metadata, or a part of an inode. -/
def InUse (s : St) (b : Nat) : Prop :=
  b < nMeta ∨ ∃ i k, i < tableSize ∧ (s.dinode i).type ≠ 0 ∧ slotAddr s.blocks (s.dinode i) k ≠ 0 ∧
    slotAddr s.blocks (s.dinode i) k = b

section Mount
variable {s : St} (hr : Rounding m₁ ip files)
  (hs : s = { iupdate m₁.disk rootIno (rounded ip) with sb := sb })
include hs

theorem dinode_mount (i : Nat) : s.dinode i = (iupdate m₁.disk rootIno (rounded ip)).dinode i := by
  rw [hs]
  rfl

include hr

theorem ilock_root : ilock s rootIno = .ok (s.cache rootIno (rounded ip), rounded ip) := by
  have hd : s.dinode rootIno = rounded ip := by
    rw [dinode_mount hs, dinode_iupdate hr.fits, if_pos rfl]
  have hnone : s.icache rootIno = none := by
    rw [hs]
    rfl
  have ht : (rounded ip).type ≠ 0 := by
    rw [hr.type]
    decide
  rw [ilock, hnone, hd]
  exact if_neg ht

theorem listing_mount : Listing (s.cache rootIno (rounded ip))
    (iupdate m₁.disk rootIno (rounded ip)).allocated rootIno (rounded ip) (dents files) := by
  rw [hs]
  exact hr.listing _

theorem namei_found (h : Acceptable files) (hj : j < files.length) (devsw : Devsw) (cwd : Nat)
    (array : List UInt8) : namei devsw s cwd (slash :: (files[j]).target) array =
      .ok (s.cache rootIno (rounded ip), some (j + 2)) := by
  have hp := h.proper _ (List.getElem_mem hj)
  obtain ⟨name', hkey, hnamei⟩ := Namei.namei_root hp.1 hp.2.1 (File.nul_target _) array
  have hl := listing_mount hr hs
  have hfind := find_dents h hj hkey
  have hfuel : (dents files).length ≤ 0 + ((rounded ip).size / 16 + 2) := by
    have hfits := hl.fits
    omega
  have hlook := hl.lookup_found devsw hfuel (by rwa [List.drop_zero])
  rw [hnamei, ilock_root hr hs, ok_bind]
  dsimp only
  rw [if_pos hr.type, Namei.dirlookup, if_pos hr.type]
  rw [Nat.mul_zero] at hlook
  have hcached : (s.cache rootIno (rounded ip)).icache rootIno = some (rounded ip) := by
    simp only [St.cache, Function.update_self]
  rw [hlook, ok_bind]
  dsimp only
  rw [cache_of_cached hcached, Fs.iput, if_neg hr.nlink]
  rfl

theorem found (h : Acceptable files) (hj : j < files.length) : Found s (files[j]) := by
  intro devsw cwd array
  have hmember : (archive files)[j + 1]? = some (tFile, (files[j]).bytes) := by
    rw [archive, List.getElem?_cons_succ, List.getElem?_map, List.getElem?_eq_getElem hj,
      Option.map_some]
  obtain ⟨jp, hjp, hej⟩ := hr.made.entry (j + 1) _ hmember
  have he := hr.other hjp hej
  have hne : j + 2 ≠ rootIno := by
    show j + 2 ≠ 1
    omega
  have hd : s.dinode (j + 2) = jp := by
    rw [dinode_mount hs, dinode_iupdate_ne hne]
    exact (allocated_eq_some.1 hjp).2.2
  have ht : jp.type = tFile := he.type
  have hlock : ilock (s.cache rootIno (rounded ip)) (j + 2) =
      .ok ((s.cache rootIno (rounded ip)).cache (j + 2) jp, jp) := by
    have hnone : (s.cache rootIno (rounded ip)).icache (j + 2) = none := by
      rw [hs]
      simp only [St.cache, Function.update_of_ne hne]
      rfl
    have hd' : (s.cache rootIno (rounded ip)).dinode (j + 2) = jp := hd
    rw [ilock, hnone, hd']
    apply if_neg
    rw [ht]
    decide
  have hblocks : ((s.cache rootIno (rounded ip)).cache (j + 2) jp).blocks =
      (iupdate m₁.disk rootIno (rounded ip)).blocks := by
    rw [hs]
    rfl
  refine ⟨_, j + 2, _, jp, namei_found hr hs h hj devsw cwd array, hlock, ht, ?_⟩
  generalize (s.cache rootIno (rounded ip)).cache (j + 2) jp = s₂ at hblocks ⊢
  have hsize : jp.size = (files[j]).bytes.length := he.size
  have hmax := h.sizes _ (List.getElem_mem hj)
  have hcov (k : Nat) (hk : k < jp.size) : Present s₂.blocks jp k := by
    rw [hblocks]
    exact he.present (by rwa [← hsize])
  have hcontent : content s₂ jp = (files[j]).bytes := by
    rw [content, hblocks]
    exact he.content
  have hn : (UInt32.ofNat jp.size).toNat = jp.size :=
    UInt32.toNat_ofNat_of_lt' (Nat.lt_of_le_of_lt (hsize ▸ hmax) (by decide))
  have hov : ¬(jp.size < (0 : UInt32).toNat ∨ 0 + UInt32.ofNat jp.size < 0) := by
    rw [UInt32.zero_add]
    rintro (hlt | hlt)
    · exact Nat.not_lt_zero _ hlt
    · exact Nat.not_lt_zero _ (UInt32.lt_iff_toNat_lt.1 hlt)
  rw [readi_covered hcov (hsize ▸ hmax) (by rw [ht]; decide), if_neg hov, hcontent, hn, hsize]
  simp

theorem missing_name (hne : name ≠ []) (hslash : slash ∉ name) (h0 : 0 ∉ name) (hdot : name ≠ [46])
    (hdots : name ≠ [46, 46])
    (hother : ∀ f ∈ files, name.take dirSiz ≠ f.target.take dirSiz) : Missing s name := by
  intro devsw cwd array s₁ i ho
  obtain ⟨name', hkey, hnamei⟩ := Namei.namei_root hne hslash h0 array
  have hl := listing_mount hr hs
  rw [hnamei, ilock_root hr hs, ok_bind] at ho
  dsimp only at ho
  rw [if_pos hr.type, Namei.dirlookup, if_pos hr.type] at ho
  obtain ⟨⟨s₂, dp, r⟩, hlook, ho⟩ := bind_ok ho
  obtain ⟨s₃, -, ho⟩ := bind_ok ho
  have hres := (hl.lookup (k := 0) (by omega) hlook).1
  cases hfind : (dents files).find? (named name') with
  | none =>
    rw [List.drop_zero, hfind] at hres
    rw [hres] at ho
    cases ho
  | some de =>
    obtain ⟨k, hk, he, -⟩ := mem_dents_named hkey hdot hdots (List.mem_of_find?_eq_some hfind)
      (List.find?_some hfind)
    exact hother _ (List.getElem_mem hk) he

theorem not_inUse (ho : ballocs n s = .ok (s', bs)) (hb : b ∈ bs) : ¬InUse s b := by
  have hg : Guarded s (iupdate m₁.disk rootIno (rounded ip)).allocated := by
    rw [hs]
    exact ⟨sb_ok, hr.guarded.holds, hr.guarded.metadata⟩
  obtain ⟨hd, hfree⟩ := ballocs_free hg.layout hg.metadata ho hb
  have hstart : s.sb.dataStart = nMeta := by
    rw [hs]
    show sb.dataStart = nMeta
    decide
  rintro (hlow | ⟨i, k, hi, ht, hz, rfl⟩)
  · exact Nat.not_lt_of_le hd.1 (by rwa [hstart])
  · have hdin := dinode_mount hs i
    have hall : (iupdate m₁.disk rootIno (rounded ip)).allocated i = some (s.dinode i) := by
      rw [hdin] at ht ⊢
      exact if_pos ⟨hi, ht⟩
    exact hg.ne_of_free hall hfree hz rfl

end Mount

/-- What mkfs writes is what the kernel reads: every file under its name, as it was, and no block in
use is handed out again. -/
theorem mkfs_agrees (h : Acceptable files) : ∃ m, main files = .ok m ∧
    (∀ f ∈ files, Found (mount m.sect) f) ∧
    (∀ name, name ≠ [] → slash ∉ name → 0 ∉ name → name ≠ [46] → name ≠ [46, 46] →
      (∀ f ∈ files, name.take dirSiz ≠ f.target.take dirSiz) → Missing (mount m.sect) name) ∧
    ∀ n s bs, ballocs n (mount m.sect) = .ok (s, bs) → ∀ b ∈ bs, ¬InUse (mount m.sect) b := by
  obtain ⟨m, hm, hfin⟩ := main_ok files h.inodes h.usable h.sizes h.blocks
  obtain ⟨m₁, ip, hr, hmount⟩ := hfin.rounding h.inodes
  refine ⟨m, hm, ?_, ?_, ?_⟩
  · intro f hf
    obtain ⟨j, hj, rfl⟩ := List.getElem_of_mem hf
    exact found hr hmount h hj
  · intro name hne hslash h0 hdot hdots hother
    exact missing_name hr hmount hne hslash h0 hdot hdots hother
  · intro n s bs ho b hb
    exact not_inUse hr hmount ho hb

theorem acceptable_readme : Acceptable [readme] := by
  constructor
  · decide
  · decide
  · exact List.pairwise_singleton _ _
  · decide
  · decide
  · decide

theorem mkfs_agrees_readme : ∃ m, main [readme] = .ok m ∧ Found (mount m.sect) readme ∧
    Missing (mount m.sect) [97] := by
  obtain ⟨m, hm, hfound, hmissing, -⟩ := mkfs_agrees acceptable_readme
  exact ⟨m, hm, hfound readme List.mem_cons_self, hmissing [97] (by decide) (by decide) (by decide)
    (by decide) (by decide) (by decide)⟩

end Xv6.Mkfs
