import Xv6.Mkfs.Archive

namespace Xv6.Mkfs
open Lib Fs Function
open Fs.Namei (readsb mount bytes Packed)
open Sys (rootIno tDir tFile slash)
open Kernel (direntBytes)
set_option autoImplicit true

variable {m m' : Image} {A : Archive} {e : Nat × List UInt8} {k t : Nat} {p bs : List UInt8}
  {f : File} {files done rest : List File}

theorem zeroed_eq : zeroed = ⟨fsSize, fun _ _ => 0, 1, nMeta⟩ := by
  have hloop (n : Nat) : (List.range n).foldl (fun m i => wsect m i fun _ => 0)
      (⟨0, fun _ _ => 0, 1, nMeta⟩ : Image) = ⟨n, fun _ _ => 0, 1, nMeta⟩ := by
    induction n with
    | zero => rfl
    | succ n ih =>
      rw [List.range_succ, List.foldl_append, ih, List.foldl_cons, List.foldl_nil, wsect]
      simp only [Image.mk.injEq, and_true]
      refine ⟨by omega, ?_⟩
      exact update_eq_self n (fun _ _ => 0)
  exact hloop fsSize

def blank : Image := wsect zeroed 1 (putWords (fun _ => 0) 0 sbWords)

theorem fresh_blank : Fresh blank := by
  rw [blank, zeroed_eq]
  constructor
  · rfl
  · exact Nat.le_refl _
  · decide
  · intro b hb
    apply update_of_ne
    rintro rfl
    exact absurd hb (by decide)
  · have hblock : (wsect ⟨fsSize, fun _ _ => 0, 1, nMeta⟩ 1 (putWords (fun _ => 0) 0 sbWords)).sect 1 =
        putWords (fun _ => 0) 0 sbWords := by
      simp only [wsect, update_self]
    rw [hblock]
    rfl

theorem made_blank : Made blank [] := by
  have hsect (i : Nat) (hi : i ≠ 1) : blank.sect i = fun _ => 0 := by
    rw [blank, zeroed_eq]
    exact update_of_ne hi _ _
  have hzero (i : Nat) (hi : i < tableSize) : blank.disk.blocks (sb.iblock i) = fun _ => 0 := by
    obtain ⟨hmap, hone, -⟩ := iblock_bounds hi
    rw [Image.disk, view_blocks _ _ hmap]
    exact hsect _ hone
  have hwf : WellFormed blank.disk := by
    apply wellFormed_empty wide_ok hzero
    · intro b hb
      rw [Image.disk, fresh_blank.bit (Nat.lt_trans hb (by decide)), blank, zeroed_eq]
      rfl
    · intro i
      rfl
  refine ⟨fresh_blank, hwf, ?_, ?_, ?_, ?_⟩
  · rw [blank, zeroed_eq]
    rfl
  · intro k e hk
    cases hk
  · intro i _
    rw [St.allocated, if_neg]
    rintro ⟨hi, ht⟩
    apply ht
    rw [St.dinode]
    show (readInode (blank.disk.blocks (sb.iblock i)) (i % ipb)).type = 0
    rw [hzero i hi, readInode, getLE_zero]
  · rw [blank, zeroed_eq]
    rfl

def File.bytes (f : File) : List UInt8 := ((f.data.getD []).map Subtype.val).flatten

def dents (files : List File) : List Dirent :=
  ⟨rootIno, strncpy dirSiz [46]⟩ :: ⟨rootIno, strncpy dirSiz [46, 46]⟩ ::
    files.mapIdx fun k f => ⟨k + 2, strncpy dirSiz f.target⟩

def archive (files : List File) : Archive :=
  (tDir, bytes (dents files)) :: files.map fun f => (tFile, f.bytes)

theorem length_strncpy (n : Nat) (t : List UInt8) : (strncpy n t).length = n := by
  induction n generalizing t with
  | zero => rfl
  | succ n ih =>
    rw [strncpy]
    split
    · rw [List.length_cons, ih]
    · rw [List.length_cons, List.length_replicate]

theorem length_dents (files : List File) : (dents files).length = files.length + 2 := by
  rw [dents, List.length_cons, List.length_cons, List.length_mapIdx]

theorem packed_dents (h : files.length + 1 < tableSize) : ∀ de ∈ dents files, Packed de := by
  intro de hde
  rw [dents, List.mem_cons, List.mem_cons, List.mem_mapIdx] at hde
  rcases hde with rfl | rfl | ⟨k, hk, rfl⟩
  · exact ⟨by decide, length_strncpy _ _⟩
  · exact ⟨by decide, length_strncpy _ _⟩
  · refine ⟨?_, length_strncpy _ _⟩
    have hsmall : tableSize < 2 ^ 16 := by decide
    show k + 2 < 2 ^ 16
    omega

theorem length_bytes_dents (h : files.length + 1 < tableSize) :
    (bytes (dents files)).length = 16 * (files.length + 2) := by
  rw [Namei.length_bytes (packed_dents h), length_dents]

theorem dents_concat (files : List File) (f : File) : dents (files ++ [f]) =
    dents files ++ [⟨files.length + 2, strncpy dirSiz f.target⟩] := by
  rw [dents, dents, List.mapIdx_concat]
  rfl

theorem archive_concat (files : List File) (f : File) : archive (files ++ [f]) =
    (tDir, bytes (dents files) ++ direntBytes ⟨files.length + 2, strncpy dirSiz f.target⟩) ::
      (files.map fun f => (tFile, f.bytes)) ++ [(tFile, f.bytes)] := by
  rw [archive, dents_concat, bytes, List.flatMap_append, List.map_append]
  simp [bytes]

theorem Fits.mono (h : Fits B) (ht : total A ≤ total B)
    (hmax : ∀ e ∈ A, ∃ e' ∈ B, e.2.length ≤ e'.2.length) : Fits A := by
  constructor
  · intro e he
    obtain ⟨e', he', hle⟩ := hmax e he
    exact Nat.le_trans hle (h.1 e' he')
  · exact Nat.le_trans (Nat.add_le_add_left ht _) h.2

theorem Fits.of_longer (hk : A[k]? = some e) (h : Fits (A.set k (t, bs ++ p))) :
    Fits (A.set k (t, bs)) := by
  have hklt : k < A.length := (List.getElem?_eq_some_iff.1 hk).1
  apply h.mono
  · have h₁ := total_set hk (t, bs)
    have h₂ := total_set hk (t, bs ++ p)
    have hle : need bs.length ≤ need (bs ++ p).length := need_mono (by simp)
    simp only at h₁ h₂
    omega
  · intro e' he'
    obtain ⟨j, hj⟩ := List.mem_iff_getElem?.1 he'
    by_cases hjk : j = k
    · subst hjk
      rw [List.getElem?_set_self hklt, Option.some.injEq] at hj
      subst hj
      exact ⟨_, List.mem_set hklt _, by simp⟩
    · rw [List.getElem?_set_ne (Ne.symm hjk)] at hj
      refine ⟨e', List.mem_iff_getElem?.2 ⟨j, ?_⟩, Nat.le_refl _⟩
      rw [List.getElem?_set_ne (Ne.symm hjk), hj]

theorem set_same (h : A[k]? = some e) : A.set k e = A := by
  obtain ⟨hlt, rfl⟩ := List.getElem?_eq_some_iff.1 h
  exact List.set_getElem_self hlt

theorem Made.copy (h : Made m A) (hk : A[k]? = some (t, bs)) (ht : t ≠ tDev)
    (chunks : List Chunk) :
    (∃ m', copy m (k + 1) chunks = .ok m' ∧
      Made m' (A.set k (t, bs ++ (chunks.map Subtype.val).flatten))) ∨
    (∃ a, copy m (k + 1) chunks = .error a) ∧
      ¬Fits (A.set k (t, bs ++ (chunks.map Subtype.val).flatten)) := by
  have hklt : k < A.length := (List.getElem?_eq_some_iff.1 hk).1
  induction chunks generalizing m A bs with
  | nil =>
    left
    refine ⟨m, rfl, ?_⟩
    rwa [List.map_nil, List.flatten_nil, List.append_nil, set_same hk]
  | cons c chunks ih =>
    rw [Mkfs.copy, List.map_cons, List.flatten_cons, ← List.append_assoc]
    have hne : c.val ≠ [] := List.ne_nil_of_length_pos c.property.1
    rcases h.iappend hk ht hne with ⟨m₁, ho, h₁⟩ | ⟨⟨a, ho⟩, hfull⟩
    · rw [ho, ok_bind]
      have hk₁ : (A.set k (t, bs ++ c.val))[k]? = some (t, bs ++ c.val) :=
        List.getElem?_set_self hklt
      have hrest := ih h₁ hk₁ (by rwa [List.length_set])
      rwa [List.set_set] at hrest
    · right
      rw [ho]
      exact ⟨⟨a, rfl⟩, fun hfits => hfull (hfits.of_longer hk)⟩

/-- A file that mkfs takes. -/
def File.Usable (f : File) : Prop := slash ∉ f.name ∧ f.data ≠ none

theorem archive_set (done : List File) (f : File) :
    (((archive done) ++ [(tFile, [])]).set 0
      (tDir, bytes (dents done) ++ direntBytes ⟨done.length + 2, strncpy dirSiz f.target⟩)).set
        (done.length + 1) (tFile, f.bytes) = archive (done ++ [f]) := by
  rw [archive_concat, archive, List.cons_append, List.set_cons_zero, List.set_cons_succ]
  congr 1
  rw [List.set_append_right _ _ (by simp)]
  simp

theorem Made.addFile (h : Made m (archive done)) (hlt : done.length + 2 < tableSize) (f : File) :
    (∃ m', addFile m f = .ok m' ∧ Made m' (archive (done ++ [f]))) ∨
      (∃ a, addFile m f = .error a) ∧ ¬(f.Usable ∧ Fits (archive (done ++ [f]))) := by
  have hlen : (archive done).length = done.length + 1 := by simp [archive]
  rw [Mkfs.addFile]
  split
  · next hs => exact .inr ⟨⟨_, rfl⟩, fun hu => hu.1.1 hs⟩
  · split
    · next hd => exact .inr ⟨⟨_, rfl⟩, fun hu => hu.1.2 hd⟩
    · next chunks hd =>
      obtain ⟨m₁, ho, h₁⟩ := h.ialloc (t := tFile) (by rw [hlen]; exact hlt) (by decide) (by decide)
      rw [hlen] at ho
      rw [ho, ok_bind]
      dsimp only
      have hinum : (done.length + 1 + 1) % 2 ^ 16 = done.length + 2 := by
        apply Nat.mod_eq_of_lt
        exact Nat.lt_trans hlt (by decide)
      rw [hinum]
      have hroot : (archive done ++ [(tFile, [])])[0]? = some (tDir, bytes (dents done)) := rfl
      have hbytes : f.bytes = [] ++ (chunks.map Subtype.val).flatten := by
        rw [File.bytes, hd]
        rfl
      have hslot (x : Nat × List UInt8) : ((archive done ++ [(tFile, [])]).set 0 x)[done.length + 1]? =
          some (tFile, []) := by
        rw [List.getElem?_set_ne (by omega), ← hlen, List.getElem?_concat_length]
      have ht : (tDir, bytes (dents done)).1 ≠ tDev := show tDir ≠ tDev by decide
      rcases h₁.iappend (p := direntBytes ⟨done.length + 2, strncpy dirSiz f.target⟩) hroot ht
        (List.cons_ne_nil _ _) with ⟨m₂, ho₂, h₂⟩ | ⟨⟨a, ho₂⟩, hfull⟩
      · have ho₂ : Mkfs.iappend m₁ rootIno _ = _ := ho₂
        rw [ho₂, ok_bind]
        have hc := h₂.copy (hslot _) (by decide) chunks
        rw [← hbytes, archive_set] at hc
        exact hc.imp_right fun hfull => ⟨hfull.1, fun hu => hfull.2 hu.2⟩
      · have ho₂ : Mkfs.iappend m₁ rootIno _ = _ := ho₂
        right
        refine ⟨⟨a, by rw [ho₂]; rfl⟩, ?_⟩
        rintro ⟨-, hfits⟩
        apply hfull
        rw [← archive_set, hbytes] at hfits
        have hshort := hfits.of_longer (hslot _)
        rwa [set_same (hslot _)] at hshort

theorem Fits.of_more (h : Fits (archive (done ++ rest))) (hlt : (done ++ rest).length + 1 < tableSize) :
    Fits (archive done) := by
  rw [List.length_append] at hlt
  have hroot : (bytes (dents done)).length ≤ (bytes (dents (done ++ rest))).length := by
    rw [length_bytes_dents (by omega), length_bytes_dents (by rw [List.length_append]; exact hlt),
      List.length_append]
    omega
  have hneed := need_mono hroot
  apply h.mono
  · simp only [total, archive, List.map_cons, List.sum_cons, List.map_append, List.sum_append]
    omega
  · intro e he
    rcases List.mem_cons.1 he with rfl | he
    · exact ⟨_, List.mem_cons_self, hroot⟩
    · refine ⟨e, List.mem_cons_of_mem _ ?_, Nat.le_refl _⟩
      rw [List.map_append]
      exact List.mem_append_left _ he

theorem Made.addFiles (h : Made m (archive done)) (files : List File)
    (hlt : (done ++ files).length + 1 < tableSize) :
    (∃ m', addFiles m files = .ok m' ∧ Made m' (archive (done ++ files))) ∨
      (∃ a, addFiles m files = .error a) ∧
        ¬((∀ f ∈ files, f.Usable) ∧ Fits (archive (done ++ files))) := by
  induction files generalizing m done with
  | nil =>
    left
    refine ⟨m, rfl, ?_⟩
    rwa [List.append_nil]
  | cons f files ih =>
    have hsplit : done ++ f :: files = (done ++ [f]) ++ files := by simp
    rw [hsplit] at hlt ⊢
    rw [Mkfs.addFiles]
    have hone : done.length + 2 < tableSize := by
      rw [List.length_append, List.length_append, List.length_singleton] at hlt
      omega
    rcases h.addFile hone f with ⟨m₁, ho, h₁⟩ | ⟨⟨a, ho⟩, hfull⟩
    · rw [ho, ok_bind]
      rcases ih h₁ hlt with hok | ⟨herr, hfull⟩
      · exact .inl hok
      · refine .inr ⟨herr, ?_⟩
        rintro ⟨hu, hfits⟩
        exact hfull ⟨fun g hg => hu g (List.mem_cons_of_mem f hg), hfits⟩
    · right
      rw [ho]
      refine ⟨⟨a, rfl⟩, ?_⟩
      rintro ⟨hu, hfits⟩
      exact hfull ⟨hu f List.mem_cons_self, hfits.of_more hlt⟩

theorem made_root : ∃ m, makeRoot = .ok m ∧ Made m (archive []) := by
  obtain ⟨m₁, ho₁, h₁⟩ := made_blank.ialloc (t := tDir) (by decide) (by decide) (by decide)
  have hfits (bs : List UInt8) (hb : bs.length ≤ 32) : Fits [(tDir, bs)] := by
    have hneed := need_mono hb
    have hmax : 32 ≤ maxFile * bSize := by decide
    have hspace : nMeta + need 32 ≤ fsSize := by decide
    constructor
    · intro e he
      rw [List.mem_singleton.1 he]
      exact Nat.le_trans hb hmax
    · show nMeta + (need bs.length + 0) ≤ fsSize
      omega
  have ht (bs : List UInt8) : (tDir, bs).1 ≠ tDev := show tDir ≠ tDev by decide
  rcases h₁.iappend (k := 0) (p := direntBytes ⟨rootIno, strncpy dirSiz [46]⟩) rfl (ht _)
    (List.cons_ne_nil _ _) with ⟨m₂, ho₂, h₂⟩ | ⟨-, hfull⟩
  · rcases h₂.iappend (k := 0) (p := direntBytes ⟨rootIno, strncpy dirSiz [46, 46]⟩) rfl (ht _)
      (List.cons_ne_nil _ _) with ⟨m₃, ho₃, h₃⟩ | ⟨-, hfull⟩
    · refine ⟨m₃, ?_, h₃⟩
      have ho₁ : ialloc (wsect zeroed 1 (putWords (fun _ => 0) 0 sbWords)) tDir = .ok (m₁, rootIno) :=
        ho₁
      rw [makeRoot, ho₁, ok_bind]
      dsimp only
      rw [if_pos rfl]
      have ho₂ : iappend m₁ rootIno _ = _ := ho₂
      rw [ho₂, ok_bind]
      exact ho₃
    · exact absurd (hfits _ (by decide)) hfull
  · exact absurd (hfits _ (by decide)) hfull

/-- The finished image: the archive with its root rounded up, and the bit map. -/
structure Finished (m : Image) (files : List File) : Prop where
  made : ∃ m₁ ip, Made m₁ (archive files) ∧ m₁.disk.allocated rootIno = some ip ∧
    Entry m₁.disk ip (tDir, bytes (dents files)) ∧ m₁.freeblock = m.freeblock ∧
    m.sect = (iupdate m₁.disk rootIno (rounded ip)).blocks
  super : readsb (m.sect 1) = sb
  map : m.sect sb.bmapstart = usedBits m.freeblock
  upper : m.freeblock ≤ fsSize

/-- mkfs runs to completion, or the files are wrong or have no space. -/
theorem main_finishes (hlt : files.length + 1 < tableSize) :
    (∃ m, main files = .ok m ∧ Finished m files) ∨
      (∃ a, main files = .error a) ∧ ¬((∀ f ∈ files, f.Usable) ∧ Fits (archive files)) := by
  obtain ⟨m₀, ho₀, h₀⟩ := made_root
  rw [main, ho₀, ok_bind]
  rcases h₀.addFiles files hlt with ⟨m₁, ho₁, h₁⟩ | ⟨⟨a, ho₁⟩, hfull⟩
  · left
    rw [List.nil_append] at h₁
    obtain ⟨ip, hip, he⟩ := h₁.entry 0 _ rfl
    have hread : rinode m₁ rootIno = .ok ip := by
      rw [h₁.fresh.rinode (i := rootIno) (by decide) fun _ => none]
      exact congrArg Except.ok (allocated_eq_some.1 hip).2.2
    obtain ⟨m₂, hw, hfol, hfb, hview⟩ := h₁.fresh.winode (i := rootIno) (by decide) (rounded ip)
    have hused : m₂.freeblock < bSize * 8 := Nat.lt_of_le_of_lt hfol.fresh.upper (by decide)
    have hsect : (wsect m₂ sb.bmapstart (usedBits m₂.freeblock)).sect =
        (iupdate m₁.disk rootIno (rounded ip)).blocks :=
      congrArg St.blocks (hview fun _ => none)
    refine ⟨wsect m₂ sb.bmapstart (usedBits m₂.freeblock), ?_, ⟨m₁, ip, h₁, hip, he, ?_, hsect⟩, ?_,
      ?_, hfol.fresh.upper⟩
    · rw [ho₁, ok_bind, hread, ok_bind, hw, ok_bind]
      exact if_pos hused
    · exact hfb.symm
    · have hne : 1 ≠ sb.bmapstart := by decide
      simp only [wsect, update_of_ne hne]
      exact hfol.fresh.super
    · simp only [wsect, update_self]
  · right
    rw [ho₁]
    exact ⟨⟨a, rfl⟩, hfull⟩

end Xv6.Mkfs
