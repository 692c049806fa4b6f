import Xv6.Fs.Account
import Xv6.Kernel.Path
import Xv6.Sys.Resolve

namespace Xv6.Fs.Namei
open Lib Fs
open Kernel (dirent direntBytes)
open Sys (rootIno tDir slash)
open Sys.Resolve (skipelem components)
set_option autoImplicit true

def readsb (blk : Block) : Superblock :=
  ⟨getWord blk 0, getWord blk 1, getWord blk 2, getWord blk 5, getWord blk 6⟩

def mount (disk : Nat → Block) : St := ⟨readsb (disk 1), disk, fun _ => none⟩

def ilock (s : St) (i : Nat) : Except Fault (St × Inode) :=
  match s.icache i with
  | some ip => .ok (s, ip)
  | none =>
    if (s.dinode i).type = 0 then .error (.panic "ilock: no type")
    else .ok (s.cache i (s.dinode i), s.dinode i)

/-- The loop of `dirlookup` from `off` on, an entry each round. -/
def lookupFrom (devsw : Devsw) (name : List UInt8) : Nat → St → Inode → Nat →
    Except Fault (St × Inode × Option Nat)
  | 0, s, dp, _ => .ok (s, dp, none)
  | fuel + 1, s, dp, off =>
    if off < dp.size then do
      let (s, dp, bs, n) ← readi devsw s dp (UInt32.ofNat off) 16
      if n = 16 then
        if (dirent bs).inum = 0 ∨ namecmp name (dirent bs).name ≠ 0 then
          lookupFrom devsw name fuel s dp (off + 16)
        else .ok (s, dp, some (dirent bs).inum)
      else .error (.panic "dirlookup read")
    else .ok (s, dp, none)

def dirlookup (devsw : Devsw) (s : St) (dp : Inode) (name : List UInt8) :
    Except Fault (St × Inode × Option Nat) :=
  if dp.type = tDir then lookupFrom devsw name (dp.size / 16 + 2) s dp 0
  else .error (.panic "dirlookup not DIR")

/-- The loop of `namex` for `namei`, which takes at most `fuel` rounds. -/
def namexLoop (devsw : Devsw) : Nat → St → Nat → List UInt8 → List UInt8 →
    Except Fault (St × Option Nat)
  | 0, _, _, _, _ => .error .blocked
  | fuel + 1, s, ip, path, name =>
    match skipelem path name with
    | none => .ok (s, some ip)
    | some (path, name) => do
      let (s, dp) ← ilock s ip
      if dp.type = tDir then
        let (s, dp, r) ← dirlookup devsw s dp name
        let s ← iput (s.cache ip dp) ip dp
        match r with
        | none => .ok (s, none)
        | some next => namexLoop devsw fuel s next path name
      else
        let s ← iput s ip dp
        .ok (s, none)

/-- `namei` for a process in `cwd`; `name` is what the array holds. -/
def namei (devsw : Devsw) (s : St) (cwd : Nat) (path name : List UInt8) :
    Except Fault (St × Option Nat) :=
  namexLoop devsw (path.length + 1) s (if path.headD 0 = slash then rootIno else cwd) path name

section Scan
variable {s s' : St} {f : Nat → Option Inode} {dp dp' : Inode} {i k a bn off : Nat}
  {dents : List Dirent} {name : List UInt8}

def bytes (dents : List Dirent) : List UInt8 := dents.flatMap direntBytes

def Packed (de : Dirent) : Prop := de.inum < 2 ^ 16 ∧ de.name.length = dirSiz

theorem length_direntBytes (h : Packed de) : (direntBytes de).length = 16 := by
  rw [direntBytes, List.length_cons, List.length_cons, h.2]

theorem length_bytes (h : ∀ de ∈ dents, Packed de) : (bytes dents).length = 16 * dents.length := by
  induction dents with
  | nil => rfl
  | cons de dents ih =>
    rw [bytes, List.flatMap_cons, List.length_append, length_direntBytes (h de List.mem_cons_self),
      ← bytes, ih fun de hde => h de (List.mem_cons_of_mem _ hde), List.length_cons]
    omega

theorem dirent_direntBytes (h : Packed de) : dirent (direntBytes de) = de := by
  obtain ⟨inum, name⟩ := de
  obtain ⟨hi, hn⟩ := h
  have hlen : name.take dirSiz = name := List.take_of_length_le (Nat.le_of_eq hn)
  have hsum : inum % 256 + 256 * (inum / 256 % 256) = inum := by
    simp only at hi
    omega
  simp only [dirent, direntBytes, List.getD_cons_zero, List.getD_cons_succ, UInt8.toNat_ofNat',
    List.drop_succ_cons, List.drop_zero, hlen]
  exact congrArg (fun inum => Dirent.mk inum name) hsum

/-- Sixteen bytes at the place of entry `k`, zero past the end. -/
def slice (dents : List Dirent) (k : Nat) : List UInt8 :=
  (List.range 16).map fun j => (bytes dents).getD (16 * k + j) 0

theorem dirent_slice (h : ∀ de ∈ dents, Packed de) (k : Nat) :
    dirent (slice dents k) = entry dents k := by
  induction dents generalizing k with
  | nil => rfl
  | cons de dents ih =>
    have hde := h de List.mem_cons_self
    have hlen := length_direntBytes hde
    have hbytes : bytes (de :: dents) = direntBytes de ++ bytes dents := rfl
    cases k with
    | zero =>
      have hslice : slice (de :: dents) 0 = direntBytes de := by
        apply List.ext_getElem
        · rw [slice, List.length_map, List.length_range, hlen]
        · intro j h₁ h₂
          rw [hlen] at h₂
          simp only [slice, List.getElem_map, List.getElem_range, hbytes, Nat.mul_zero, Nat.zero_add]
          rw [List.getD_append _ _ _ _ (by omega), List.getD_eq_getElem]
      rw [hslice, dirent_direntBytes hde]
      rfl
    | succ k =>
      have hslice : slice (de :: dents) (k + 1) = slice dents k := by
        apply List.map_congr_left
        intro j _
        rw [hbytes, List.getD_append_right _ _ _ _ (by omega), hlen]
        congr 1
        omega
      rw [hslice, ih (fun de hde => h de (List.mem_cons_of_mem _ hde))]
      rfl

/-- The blocks of directory `i` hold the entries, and nothing after them. -/
structure Listing (s : St) (f : Nat → Option Inode) (i : Nat) (dp : Inode)
    (dents : List Dirent) : Prop where
  guarded : Guarded s f
  mine : f i = some dp
  owned : ∃ S, Owned s dp S
  type : dp.type = tDir
  size : dp.size ≤ maxFile * bSize
  whole : dp.size % 16 = 0
  packed : ∀ de ∈ dents, Packed de
  fits : 16 * dents.length ≤ dp.size
  present : ∀ k, k < 16 * dents.length → Present s.blocks dp k
  held : ∀ k, Present s.blocks dp k → fileByte s.blocks dp k = (bytes dents).getD k 0

theorem Listing.bmap (h : Listing s f i dp dents) (ho : Fs.bmap s dp bn = .ok (s', dp', a)) :
    Listing s' (Function.update f i (some dp')) i dp' dents ∧ dp'.size = dp.size ∧
      dp'.nlink = dp.nlink := by
  obtain ⟨S, hS⟩ := h.owned
  obtain ⟨hacc, hzero⟩ := hS.bmap h.guarded h.mine ho
  obtain ⟨hg, ha, hz⟩ := bmap_grows h.guarded h.mine ho
  have hsize : dp'.size = dp.size := by rw [hg.fields]
  have hnlink : dp'.nlink = dp.nlink := by rw [hg.fields]
  have htype : dp'.type = dp.type := by rw [hg.fields]
  refine ⟨⟨hg.guarded, Function.update_self .., ⟨_, hacc.owned⟩, htype.trans h.type,
    hsize ▸ h.size, hsize ▸ h.whole, h.packed, hsize ▸ h.fits, ?_, ?_⟩, hsize, hnlink⟩
  · intro k hk
    have hp := h.present k hk
    rw [Present, hg.mine _ hp]
    exact hp
  · intro k hp
    by_cases hold : Present s.blocks dp k
    · rw [hg.byte h.mine hold]
      exact h.held k hold
    · have hlt : (bytes dents).length ≤ k := by
        rw [length_bytes h.packed]
        by_contra hn
        exact hold (h.present k (by omega))
      have hbn := hacc.owned.new_present hS hp hold
      have hnew : slot (k / bSize) ∉ S := fun hmem => hold ((hS _).2 hmem)
      rw [hbn] at hnew
      rw [List.getD_eq_default _ _ hlt, fileByte, hbn, ha, hzero hnew]
      simp [byteAt]

theorem readLoop_none (fuel : Nat) (s : St) (ip : Inode) (off : Nat) :
    readLoop fuel s ip off 0 = .ok (s, ip, []) := by
  cases fuel <;> rfl

theorem Listing.readi (h : Listing s f i dp dents) (hk : 16 * k < dp.size) :
    Fs.readi devsw s dp (UInt32.ofNat (16 * k)) 16 =
      Fs.bmap s dp (16 * k / bSize) >>= fun r => .ok (r.1, r.2.1,
        (List.range 16).map fun j => byteAt (r.1.blocks r.2.2) (16 * k % bSize + j), 16) := by
  have hsize := h.size
  have hwhole := h.whole
  simp only [maxFile, nDirect, nIndirect, bSize] at hsize
  have hoff : (UInt32.ofNat (16 * k)).toNat = 16 * k := UInt32.toNat_ofNat_of_lt' (by
    show 16 * k < 2 ^ 32
    omega)
  have hadd : (UInt32.ofNat (16 * k) + 16).toNat = 16 * k + 16 := by
    rw [UInt32.toNat_add, hoff]
    show (16 * k + 16) % 2 ^ 32 = 16 * k + 16
    omega
  have hov : ¬(dp.size < (UInt32.ofNat (16 * k)).toNat ∨
      UInt32.ofNat (16 * k) + 16 < UInt32.ofNat (16 * k)) := by
    rw [UInt32.lt_iff_toNat_lt, hadd, hoff]
    omega
  have hcnt : ¬dp.size < 16 * k + 16 := by omega
  have hm : min 16 (bSize - 16 * k % bSize) = 16 := by
    simp only [bSize]
    omega
  have hn : (16 : UInt32).toNat = 16 := rfl
  rw [Fs.readi, if_neg (by rw [h.type]; decide), if_neg hov, hadd, hoff, if_neg hcnt, hn]
  change (readLoop (15 + 1) s dp (16 * k) 16 >>= _) = _
  rw [readLoop, if_neg (by decide), hm]
  cases Fs.bmap s dp (16 * k / bSize) with
  | error e => rfl
  | ok r =>
    rw [ok_bind, ok_bind]
    dsimp only
    rw [Nat.sub_self, readLoop_none, ok_bind]
    dsimp only
    rw [List.append_nil]
    rfl

theorem Listing.slice (h : Listing s f i dp dents)
    (ho : Fs.bmap s dp (16 * k / bSize) = .ok (s', dp', a)) :
    (List.range 16).map (fun j => byteAt (s'.blocks a) (16 * k % bSize + j)) =
      Namei.slice dents k := by
  obtain ⟨h', -, -⟩ := h.bmap ho
  obtain ⟨-, ha, hz⟩ := bmap_grows h.guarded h.mine ho
  apply List.map_congr_left
  intro j hj
  have hj := List.mem_range.1 hj
  have hdiv : (16 * k + j) / bSize = 16 * k / bSize := by
    simp only [bSize]
    omega
  have hmod : (16 * k + j) % bSize = 16 * k % bSize + j := by
    simp only [bSize]
    omega
  have hp : Present s'.blocks dp' (16 * k + j) := by
    rw [Present, hdiv, ha]
    exact hz
  rw [← h'.held _ hp, fileByte, hdiv, hmod, ha]

/-- The entry that `dirlookup` looks for. -/
def named (name : List UInt8) (de : Dirent) : Bool := de.inum ≠ 0 ∧ namecmp name de.name = 0

theorem named_entry (h : named name (entry dents k)) : k < dents.length := by
  apply lt_of_inum_ne
  exact (of_decide_eq_true h).1

theorem find_drop_of_named (h : named name (entry dents k)) :
    (dents.drop k).find? (named name) = some (entry dents k) := by
  have hk := named_entry h
  rw [entry_of_lt hk] at h ⊢
  rw [List.drop_eq_getElem_cons hk, List.find?_cons_of_pos h]

theorem find_drop_of_not_named (h : ¬named name (entry dents k)) :
    (dents.drop k).find? (named name) = (dents.drop (k + 1)).find? (named name) := by
  by_cases hk : k < dents.length
  · rw [entry_of_lt hk] at h
    rw [List.drop_eq_getElem_cons hk, List.find?_cons_of_neg h]
  · rw [List.drop_eq_nil_of_le (by omega), List.drop_eq_nil_of_le (by omega)]

theorem Listing.round (h : Listing s f i dp dents) (hk : 16 * k < dp.size) :
    lookupFrom devsw name (fuel + 1) s dp (16 * k) =
      Fs.bmap s dp (16 * k / bSize) >>= fun r =>
        if named name (entry dents k) then .ok (r.1, r.2.1, some (entry dents k).inum)
        else lookupFrom devsw name fuel r.1 r.2.1 (16 * (k + 1)) := by
  rw [lookupFrom, if_pos hk, h.readi hk]
  cases ho : Fs.bmap s dp (16 * k / bSize) with
  | error e => rfl
  | ok r =>
    obtain ⟨s₁, dp₁, a⟩ := r
    rw [ok_bind, ok_bind, ok_bind]
    dsimp only
    rw [if_pos rfl, h.slice ho, dirent_slice h.packed]
    by_cases hn : named name (entry dents k) = true
    · rw [if_pos hn, if_neg]
      rw [named, decide_eq_true_eq] at hn
      rintro (he | he)
      · exact hn.1 he
      · exact he hn.2
    · rw [if_neg hn, if_pos]
      · rfl
      · rw [named, decide_eq_true_eq, not_and_or, not_not] at hn
        exact hn

theorem Listing.drop_end (h : Listing s f i dp dents) (hle : dp.size ≤ 16 * k) :
    dents.drop k = [] := by
  have hfits := h.fits
  exact List.drop_eq_nil_of_le (by omega)

theorem Listing.lookup (h : Listing s f i dp dents) (hfuel : dp.size < 16 * (k + fuel))
    (ho : lookupFrom devsw name fuel s dp (16 * k) = .ok (s', dp', r)) :
    r = ((dents.drop k).find? (named name)).map Dirent.inum ∧ dp'.nlink = dp.nlink := by
  induction fuel generalizing s f dp k with
  | zero =>
    cases ho
    rw [h.drop_end (by omega)]
    exact ⟨rfl, rfl⟩
  | succ fuel ih =>
    by_cases hk : 16 * k < dp.size
    · rw [h.round hk] at ho
      obtain ⟨⟨s₁, dp₁, a⟩, hb, ho⟩ := bind_ok ho
      obtain ⟨h₁, hsize, hnlink⟩ := h.bmap hb
      dsimp only at ho
      split at ho
      · next hn =>
        cases ho
        rw [find_drop_of_named hn]
        exact ⟨rfl, hnlink⟩
      · next hn =>
        rw [find_drop_of_not_named hn, ← hnlink]
        exact ih h₁ (by omega) ho
    · rw [lookupFrom, if_neg hk] at ho
      cases ho
      rw [h.drop_end (by omega)]
      exact ⟨rfl, rfl⟩

/-- `dirlookup` finds an entry that is there, and changes nothing. -/
theorem Listing.lookup_found (h : Listing s f i dp dents) (devsw : Devsw)
    (hfuel : dents.length ≤ k + fuel) (hf : (dents.drop k).find? (named name) = some de) :
    lookupFrom devsw name fuel s dp (16 * k) = .ok (s, dp, some de.inum) := by
  have hlt : k < dents.length := by
    by_contra hn
    rw [List.drop_eq_nil_of_le (Nat.le_of_not_lt hn)] at hf
    cases hf
  induction fuel generalizing k with
  | zero => omega
  | succ fuel ih =>
    have hfits := h.fits
    have hsize := h.size
    have hbn : 16 * k / bSize < maxFile := by
      simp only [maxFile, nDirect, nIndirect, bSize] at hsize ⊢
      omega
    rw [h.round (by omega), bmap_present hbn (h.present _ (by omega)), ok_bind]
    dsimp only
    split
    · next hn =>
      rw [find_drop_of_named hn, Option.some.injEq] at hf
      rw [hf]
    · next hn =>
      rw [find_drop_of_not_named hn] at hf
      apply ih (by omega) hf
      by_contra hge
      rw [List.drop_eq_nil_of_le (by omega)] at hf
      cases hf

end Scan

section Path
variable {name : List UInt8}

theorem components_name (hne : name ≠ []) (hs : slash ∉ name) (h0 : 0 ∉ name) :
    components (slash :: name) = [name.take dirSiz] := by
  have hword : components (name ++ []) = name.take dirSiz :: components [] :=
    Sys.Resolve.components_word hne hs h0 (.inr rfl)
  rw [List.append_nil] at hword
  have hdrop := Sys.Resolve.components_dropWhile (slash :: name)
  rw [List.dropWhile_cons_of_pos (by simp), Sys.Resolve.components_dropWhile] at hdrop
  rw [← hdrop, hword]
  rfl

theorem namei_root (hne : name ≠ []) (hs : slash ∉ name) (h0 : 0 ∉ name) (array : List UInt8) :
    ∃ name', key name' = name.take dirSiz ∧ ∀ devsw s cwd,
      namei devsw s cwd (slash :: name) array = ilock s rootIno >>= fun r =>
        if r.2.type = tDir then
          dirlookup devsw r.1 r.2 name' >>= fun r =>
            iput (r.1.cache rootIno r.2.1) rootIno r.2.1 >>= fun s => .ok (s, r.2.2)
        else iput r.1 rootIno r.2 >>= fun s => .ok (s, none) := by
  have hcomp := components_name hne hs h0
  cases hskip : skipelem (slash :: name) array with
  | none =>
    rw [Sys.Resolve.skipelem_none hskip] at hcomp
    cases hcomp
  | some r =>
    obtain ⟨rest, name'⟩ := r
    obtain ⟨hc, -, -⟩ := Sys.Resolve.skipelem_some hskip
    rw [hcomp, List.cons.injEq] at hc
    have hrest (array : List UInt8) : skipelem rest array = none := by
      cases hr : skipelem rest array with
      | none => rfl
      | some r =>
        have hmore := (Sys.Resolve.skipelem_some hr).1
        rw [← hc.2] at hmore
        cases hmore
    refine ⟨name', hc.1.symm, ?_⟩
    intro devsw s cwd
    rw [namei, List.length_cons, namexLoop, hskip, List.headD_cons, if_pos rfl]
    dsimp only
    congr 1
    funext ⟨s₁, dp⟩
    dsimp only
    split
    · congr 1
      funext ⟨s₂, dp₂, r⟩
      dsimp only
      congr 1
      funext s₃
      cases r with
      | none => rfl
      | some next =>
        dsimp only
        rw [namexLoop, hrest]
    · rfl

end Path

end Xv6.Fs.Namei
