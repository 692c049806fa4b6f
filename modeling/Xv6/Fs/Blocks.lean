import Xv6.Fs.WellFormed

namespace Xv6.Fs
open Lib Function
set_option autoImplicit true

variable {s s' : St} {ip ip' jp : Inode} {i j k l a b n bn : Nat}
variable {o o' o'' : Nat × Nat → Option Nat}

/-- Blocks have been given back. -/
structure Frees (s s' : St) (o : Nat × Nat → Option Nat) : Prop where
  marks : Marks s' o
  sb : s'.sb = s.sb
  icache : s'.icache = s.icache
  frame : ∀ n, (∀ b, InData s.sb b → n ≠ s.sb.bblock b) → s'.blocks n = s.blocks n

theorem Marks.refl (h : Marks s o) : Frees s s o :=
  ⟨h, rfl, rfl, fun _ _ => rfl⟩

theorem Frees.trans (h : Frees s s₁ o) (h' : Frees s₁ s' o') : Frees s s' o' := by
  refine ⟨h'.marks, h'.sb.trans h.sb, h'.icache.trans h.icache, ?_⟩
  intro n hn
  rw [h'.frame n (by rwa [h.sb]), h.frame n hn]

theorem Marks.bfree (h : Marks s o) (hx : o x = some a) :
    ∃ s', Fs.bfree s a = .ok s' ∧ Frees s s' (update o x none) := by
  have hd := h.owns.inside x a hx
  obtain ⟨s', hs, hsb, hc, hbit, hframe⟩ := bfree_ok (h.owns.holds.used _ _ hx)
  refine ⟨s', hs, ⟨?_, ?_, ?_⟩, hsb, hc, fun n hn => hframe n (hn a hd)⟩
  · rw [hsb]
    exact h.layout
  · rw [hsb]
    apply h.owns.drop hx
    intro b _
    rw [hbit]
    simp
  · rw [hsb]
    intro b hb hlt
    have hne : b ≠ a := by
      rintro rfl
      exact absurd hd.1 (Nat.not_le_of_lt hb)
    rw [hbit, h.metadata b hb hlt]
    simp [hne]

theorem freeAll_cons (s : St) (a : Nat) (as : List Nat) : Fs.freeAll s (a :: as) =
    (if a = 0 then .ok s else Fs.bfree s a) >>= fun s => Fs.freeAll s as := by
  rw [Fs.freeAll]
  split
  · rfl
  · rfl

theorem Marks.freeAll {ks : List Nat} (h : Marks s o) (hks : ks.Nodup) (addr : Nat → Nat)
    (ha : ∀ k ∈ ks, o (i, k) = if addr k = 0 then none else some (addr k)) :
    ∃ s', Fs.freeAll s (ks.map addr) = .ok s' ∧
      Frees s s' fun x => if x.1 = i ∧ x.2 ∈ ks then none else o x := by
  induction ks generalizing s o with
  | nil =>
    refine ⟨s, rfl, ?_⟩
    simp only [List.not_mem_nil, and_false, ↓reduceIte]
    exact h.refl
  | cons k ks ih =>
    obtain ⟨hk, hks⟩ := List.nodup_cons.1 hks
    have hhead : ∃ s₁, (if addr k = 0 then .ok s else Fs.bfree s (addr k)) = .ok s₁ ∧
        Frees s s₁ (update o (i, k) none) := by
      have hak := ha k List.mem_cons_self
      by_cases hz : addr k = 0
      · rw [if_pos hz] at hak ⊢
        refine ⟨s, rfl, ?_⟩
        rw [← hak, update_eq_self]
        exact h.refl
      · rw [if_neg hz] at hak ⊢
        exact h.bfree hak
    obtain ⟨s₁, h₁, hf₁⟩ := hhead
    have ha' (l : Nat) (hl : l ∈ ks) : update o (i, k) none (i, l) =
        if addr l = 0 then none else some (addr l) := by
      have hlk : (i, l) ≠ (i, k) := by
        rintro ⟨⟩
        exact hk hl
      rw [update_of_ne hlk]
      exact ha l (List.mem_cons_of_mem k hl)
    obtain ⟨s', h', hf'⟩ := ih hf₁.marks hks ha'
    refine ⟨s', ?_, ?_⟩
    · rw [List.map_cons, freeAll_cons, h₁]
      exact h'
    · have he : (fun x => if x.1 = i ∧ x.2 ∈ k :: ks then none else o x) = fun x =>
          if x.1 = i ∧ x.2 ∈ ks then none else update o (i, k) none x := by
        funext ⟨j, l⟩
        by_cases hjl : (j, l) = (i, k)
        · cases hjl
          simp [update_self]
        · rw [update_of_ne hjl]
          simp only [Prod.mk.injEq, not_and] at hjl
          simp only [List.mem_cons]
          by_cases hj : j = i
          · simp [hj, hjl hj]
          · simp [hj]
      rw [he]
      exact hf₁.trans hf'

def disown (o : Nat × Nat → Option Nat) (i : Nat) (x : Nat × Nat) : Option Nat :=
  if x.1 = i then none else o x

theorem slotAddr_of_le (h : nDirect + 1 + nIndirect ≤ k) : slotAddr blocks ip k = 0 := by
  have h₁ : ¬k < nDirect + 1 := by omega
  rw [slotAddr, dif_neg h₁, if_pos (.inr h)]

theorem slotAddr_of_last (hz : ip.addrs (Fin.last nDirect) = 0) (h : nDirect ≤ k) :
    slotAddr blocks ip k = 0 := by
  by_cases h₁ : k < nDirect + 1
  · obtain rfl : k = nDirect := by omega
    rw [slotAddr_last, hz]
  · rw [slotAddr, dif_neg h₁, if_pos (.inl hz)]

theorem directs_eq (blocks : Nat → Block) (ip : Inode) :
    ((List.finRange nDirect).map fun k => ip.addrs k.castSucc) =
      (List.range nDirect).map (slotAddr blocks ip) := by
  apply List.ext_getElem
  · simp
  · intro k h₁ h₂
    have hk : k < nDirect := by simpa using h₂
    simp only [List.getElem_map, List.getElem_finRange, List.getElem_range]
    rw [slotAddr, dif_pos (Nat.lt_succ_of_lt hk)]
    rfl

theorem entries_eq (blocks : Nat → Block) (hz : ip.addrs (Fin.last nDirect) ≠ 0) :
    (List.range nIndirect).map (getWord (blocks (ip.addrs (Fin.last nDirect)))) =
      ((List.range nIndirect).map (nDirect + 1 + ·)).map (slotAddr blocks ip) := by
  rw [List.map_map]
  apply List.map_congr_left
  intro k hk
  have hk := List.mem_range.1 hk
  have h₁ : ¬nDirect + 1 + k < nDirect + 1 := by omega
  have h₂ : ¬(ip.addrs (Fin.last nDirect) = 0 ∨
      nDirect + 1 + nIndirect ≤ nDirect + 1 + k) := by
    rintro (h | h)
    · exact hz h
    · omega
  rw [comp, slotAddr, dif_neg h₁, if_neg h₂, Nat.add_sub_cancel_left]

theorem Sound.freeBlocks (h : Sound s f) (hi : f i = some ip) :
    ∃ s', Fs.freeBlocks s ip = .ok s' ∧ Frees s s' (disown (own s.blocks f) i) := by
  have hown (k : Nat) : own s.blocks f (i, k) =
      if slotAddr s.blocks ip k = 0 then none else some (slotAddr s.blocks ip k) := by
    simp only [own, hi]
  obtain ⟨s₁, h₁, hf₁⟩ := Marks.freeAll (i := i) h List.nodup_range _ fun k _ => hown k
  rw [Fs.freeBlocks, directs_eq s.blocks ip, h₁]
  by_cases hz : ip.addrs (Fin.last nDirect) = 0
  · refine ⟨s₁, if_pos hz, ?_⟩
    have he : disown (own s.blocks f) i = fun x =>
        if x.1 = i ∧ x.2 ∈ List.range nDirect then none else own s.blocks f x := by
      funext x
      obtain ⟨j, k⟩ := x
      by_cases hj : j = i
      · subst hj
        simp only [disown, ↓reduceIte, true_and, List.mem_range]
        split
        · rfl
        · next hk => rw [hown, if_pos (slotAddr_of_last hz (Nat.le_of_not_lt hk))]
      · simp only [disown, hj, false_and, ↓reduceIte]
    rw [he]
    exact hf₁
  · have hlast := h.guarded.last_inData hi hz
    have hblk : s₁.blocks (ip.addrs (Fin.last nDirect)) =
        s.blocks (ip.addrs (Fin.last nDirect)) :=
      hf₁.frame _ fun b hb => (h.layout.bblock_ne_data hb.2 hlast).symm
    have hnodup : ((List.range nIndirect).map (nDirect + 1 + ·)).Nodup :=
      List.Pairwise.map _ (fun a b hab he => hab (Nat.add_left_cancel he)) List.nodup_range
    have hdisj (k : Nat) (hk : k ∈ (List.range nIndirect).map (nDirect + 1 + ·)) :
        nDirect < k := by
      obtain ⟨m, -, rfl⟩ := List.mem_map.1 hk
      omega
    obtain ⟨s₂, h₂, hf₂⟩ := hf₁.marks.freeAll (i := i) hnodup (slotAddr s.blocks ip) (by
      intro k hk
      have hkd := hdisj k hk
      rw [if_neg (by simp only [List.mem_range]; omega)]
      exact hown k)
    obtain ⟨s₃, h₃, hf₃⟩ := hf₂.marks.bfree (x := (i, nDirect))
      (a := ip.addrs (Fin.last nDirect)) (by
        rw [if_neg (fun hm => absurd (hdisj _ hm.2) (Nat.lt_irrefl _)),
          if_neg (by simp), hown, slotAddr_last, if_neg hz])
    refine ⟨s₃, ?_, ?_⟩
    · simp only [bind, Except.bind, hz, ↓reduceIte, hblk, entries_eq s.blocks hz, h₂]
      exact h₃
    · have he : disown (own s.blocks f) i = update (fun x =>
          if x.1 = i ∧ x.2 ∈ (List.range nIndirect).map (nDirect + 1 + ·) then none else
            if x.1 = i ∧ x.2 ∈ List.range nDirect then none else own s.blocks f x)
          (i, nDirect) none := by
        funext x
        obtain ⟨j, k⟩ := x
        by_cases hj : j = i
        · subst hj
          by_cases hk : k = nDirect
          · subst hk
            simp only [disown, ↓reduceIte, update_self]
          · rw [update_of_ne (by simpa using hk)]
            simp only [disown, ↓reduceIte, true_and, List.mem_range, List.mem_map]
            split
            · rfl
            · next hn =>
              split
              · rfl
              · next hd =>
                rw [hown, if_pos]
                apply slotAddr_of_le
                by_contra hlt
                exact hn ⟨k - (nDirect + 1), by omega, by omega⟩
        · rw [update_of_ne (by simp [hj])]
          simp only [disown, hj, false_and, ↓reduceIte]
      rw [he]
      exact (hf₁.trans hf₂).trans hf₃

theorem slotAddr_truncated (blocks : Nat → Block) (ip : Inode) (k : Nat) :
    slotAddr blocks ip.truncated k = 0 := by
  simp only [slotAddr, Inode.truncated, true_or, ↓reduceIte, dite_eq_ite, ite_self]

theorem Frees.blocks_data (h : Frees s s' o) (hok : s.sb.Ok) (hd : InData s.sb a) :
    s'.blocks a = s.blocks a :=
  h.frame a fun _ hb => (hok.bblock_ne_data hb.2 hd).symm

theorem Frees.allocated (h : Frees s s' o) (hok : s.sb.Ok) : s'.allocated = s.allocated := by
  apply allocated_congr h.sb
  intro j hj
  apply h.frame
  intro b _
  exact hok.iblock_ne_bblock hj b

theorem Busy.freed (h : Busy s i ip n)
    (hf : Frees s s' (disown (own s.blocks (update s.allocated i (some ip))) i)) :
    Busy s' i ip.truncated 0 := by
  have hok := h.sound.layout
  have hslot (j : Nat) (jp : Inode) (hj : update s.allocated i (some ip) j = some jp)
      (l : Nat) : slotAddr s'.blocks jp l = slotAddr s.blocks jp l := by
    apply slotAddr_congr
    intro hz
    exact hf.blocks_data hok (h.sound.guarded.last_inData hj hz)
  have hown : own s'.blocks (update s.allocated i (some ip.truncated)) =
      disown (own s.blocks (update s.allocated i (some ip))) i := by
    funext ⟨j, l⟩
    by_cases hji : j = i
    · subst hji
      simp only [own, disown, update_self, slotAddr_truncated, ↓reduceIte]
    · simp only [own, disown, update_of_ne hji, hji, ↓reduceIte]
      split
      · next jp hj => rw [hslot j jp (Busy.mem_other hji hj)]
      · rfl
  apply h.transfer hf.sb hf.icache (hf.allocated hok)
  · rw [Sound, hown]
    exact hf.marks
  · intro bn _
    rw [slotAddr_truncated]
    simp
  · intro j jp hji hj
    exact hslot j jp (Busy.mem_other hji hj)

theorem fits_truncated (h : ip.Fits) : ip.truncated.Fits :=
  ⟨h.type, h.major, h.minor, h.nlink, by simp [Inode.truncated], by simp [Inode.truncated]⟩

theorem blockCount_zero : blockCount 0 = 0 := by
  decide

/-- `itrunc` never meets a free block. -/
theorem WellFormed.itrunc (h : WellFormed s) (hi : s.icache i = some ip) :
    ∃ s', Fs.itrunc s i ip = .ok (s', ip.truncated) ∧ WellFormed (s'.cache i ip.truncated) := by
  have hb := h.busy hi
  obtain ⟨s₁, h₁, hf⟩ := hb.sound.freeBlocks (Busy.mem_self i ip)
  refine ⟨iupdate s₁ i ip.truncated, ?_, ?_⟩
  · rw [Fs.itrunc, h₁]
    rfl
  · have hb' := hb.freed hf
    rw [← blockCount_zero] at hb'
    have ht : ip.type ≠ 0 := h.type_ne hi
    exact Busy.iupdate hb' (fits_truncated (h.fits hi)) ht (Nat.zero_le _)

theorem WellFormed.replace (h : WellFormed s) (ip' : Inode) (hlt : i < s.sb.ninodes)
    (hold : ∀ ip, s.allocated i = some ip → ip.addrs = fun _ => 0) (hf : ip'.Fits)
    (ha : ip'.addrs = fun _ => 0) (hsz : ip'.size = 0) :
    WellFormed ((iupdate s i ip').uncache i) := by
  have hnone (blocks : Nat → Block) (ip : Inode) (l : Nat) (hip : ip.addrs = fun _ => 0) :
      slotAddr blocks ip l = 0 := by
    simp only [slotAddr, hip, true_or, ↓reduceIte, dite_eq_ite, ite_self]
  have hall := allocated_iupdate (s := s) hf hlt
  have hs : Sound (iupdate s i ip') s.allocated := h.sound.iupdate hlt
  have hown : own (iupdate s i ip').blocks (iupdate s i ip').allocated =
      own (iupdate s i ip').blocks s.allocated := by
    rw [hall]
    funext x
    obtain ⟨j, l⟩ := x
    by_cases hji : j = i
    · subst hji
      simp only [own, update_self]
      cases hj : s.allocated j with
      | none =>
        by_cases ht : ip'.type = 0
        · simp only [ht, ↓reduceIte]
        · simp only [ht, ↓reduceIte, hnone _ ip' l ha]
      | some jp =>
        simp only [hnone _ jp l (hold jp hj), ↓reduceIte]
        by_cases ht : ip'.type = 0
        · simp only [ht, ↓reduceIte]
        · simp only [ht, ↓reduceIte, hnone _ ip' l ha]
    · simp only [own, update_of_ne hji]
  constructor
  · refine ⟨hs.layout, ?_, hs.metadata⟩
    change Owns _ _ (own (iupdate s i ip').blocks (iupdate s i ip').allocated)
    rw [hown]
    exact hs.owns
  · intro j jp hj
    change (iupdate s i ip').allocated j = some jp at hj
    rw [hall] at hj
    by_cases hji : j = i
    · subst hji
      rw [update_self] at hj
      split at hj
      · cases hj
      · cases hj
        refine ⟨?_, by rw [hsz]; exact Nat.zero_le _⟩
        intro bn _
        rw [hnone _ _ _ ha, hsz, blockCount_zero]
        simp
    · rw [update_of_ne hji] at hj
      obtain ⟨hsh, hle⟩ := h.shape j jp hj
      exact ⟨hsh.congr (h.sound.guarded.slotAddr_iupdate hlt hj), hle⟩
  · intro j jp hj
    change (iupdate s i ip').allocated j = some jp
    rw [hall]
    by_cases hji : j = i
    · subst hji
      simp only [St.uncache, update_self] at hj
      cases hj
    · simp only [St.uncache, update_of_ne hji] at hj
      rw [update_of_ne hji]
      exact h.cache j jp hj

theorem WellFormed.iput (h : WellFormed s) (hi : s.icache i = some ip) :
    ∃ s', Fs.iput s i ip = .ok s' ∧ WellFormed s' := by
  rw [Fs.iput]
  split
  · obtain ⟨s₁, h₁, hw⟩ := h.itrunc hi
    refine ⟨_, by rw [h₁]; rfl, ?_⟩
    have hc : (s₁.cache i ip.truncated).icache i = some ip.truncated := update_self ..
    have hr := hw.replace { ip.truncated with type := 0 } (hw.busy hc).inum
      (by
        intro ip₁ h₁
        cases Option.some.inj ((hw.cache i _ hc).symm.trans h₁)
        rfl) ?_ rfl rfl
    · have he : ((iupdate (s₁.cache i ip.truncated) i { ip.truncated with type := 0 }).uncache i) =
          (iupdate s₁ i { ip.truncated with type := 0 }).uncache i := by
        simp only [iupdate, St.cache, St.uncache, St.setBlock, update_idem]
      rw [← he]
      exact hr
    · have hf := fits_truncated (h.fits hi)
      exact ⟨by simp, hf.major, hf.minor, hf.nlink, hf.size, hf.addrs⟩
  · exact ⟨s, rfl, h⟩

theorem WellFormed.ialloc (h : WellFormed s) (htype : type < 2 ^ 16)
    (ho : Fs.ialloc s type = .ok (s', i)) : WellFormed s' := by
  rw [Fs.ialloc] at ho
  split at ho
  · next k hk =>
    cases ho
    have hfree : (s.dinode i).type = 0 := by simpa using List.find?_some hk
    have hlt : i < s.sb.ninodes :=
      List.mem_range.1 (List.mem_of_mem_drop (List.mem_of_find?_eq_some hk))
    have hnone : s.allocated i = none := by
      rw [St.allocated, if_neg]
      exact fun hne => hne.2 hfree
    have hr := h.replace ⟨type, 0, 0, 0, 0, fun _ => 0⟩ hlt
      (by
        intro ip hip
        cases hnone.symm.trans hip)
      ⟨htype, by simp, by simp, by simp, by simp, by simp⟩ rfl rfl
    have hun : s.icache i = none := by
      cases hc : s.icache i with
      | none => rfl
      | some ip => cases hnone.symm.trans (h.cache i ip hc)
    have he : (iupdate s i ⟨type, 0, 0, 0, 0, fun _ => 0⟩).uncache i =
        iupdate s i ⟨type, 0, 0, 0, 0, fun _ => 0⟩ := by
      have hu : update s.icache i none = s.icache := by
        rw [← hun]
        exact update_eq_self ..
      simp only [iupdate, St.uncache, St.setBlock, hu]
    rw [← he]
    exact hr
  · cases ho

theorem WellFormed.ilock (h : WellFormed s) (hi : i < s.sb.ninodes)
    (ht : (s.dinode i).type ≠ 0) : WellFormed (s.cache i (s.dinode i)) := by
  have ha : s.allocated i = some (s.dinode i) := if_pos ⟨hi, ht⟩
  refine ⟨⟨h.sound.layout, h.sound.owns, h.sound.metadata⟩, h.shape, ?_⟩
  intro j jp hj
  by_cases hji : j = i
  · subst hji
    simp only [St.cache, update_self, Option.some.injEq] at hj
    rw [← hj]
    exact ha
  · simp only [St.cache, update_of_ne hji] at hj
    exact h.cache j jp hj

theorem WellFormed.recycle (h : WellFormed s) (i : Nat) : WellFormed (s.uncache i) := by
  refine ⟨⟨h.sound.layout, h.sound.owns, h.sound.metadata⟩, h.shape, ?_⟩
  intro j jp hj
  by_cases hji : j = i
  · subst hji
    simp only [St.uncache, update_self] at hj
    cases hj
  · simp only [St.uncache, update_of_ne hji] at hj
    exact h.cache j jp hj

theorem WellFormed.setMeta (h : WellFormed s) (hi : s.icache i = some ip)
    (hip : ip' = { ip with major := major, minor := minor, nlink := nlink })
    (hf : ip'.Fits) : WellFormed ((iupdate s i ip').cache i ip') := by
  have ht : ip'.type = ip.type := by rw [hip]
  have hsz : ip'.size = ip.size := by rw [hip]
  have hb : Busy s i ip' (blockCount ip.size) := (h.busy hi).setFields (by rw [hip])
  rw [← hsz] at hb
  apply hb.iupdate hf
  · rw [ht]
    exact h.type_ne hi
  · rw [hsz]
    exact h.size_le hi

/-- Every operation keeps the file system well formed. -/
theorem WellFormed.step (h : WellFormed s) (hl : legal s op)
    (ho : Fs.step devsw s op = .ok s') : WellFormed s' := by
  cases op with
  | ialloc type =>
    obtain ⟨⟨s₁, i⟩, h₁, he⟩ := bind_ok ho
    cases he
    exact h.ialloc type.toNat_lt h₁
  | ilock i =>
    rw [Fs.step] at ho
    split at ho
    · cases ho
      exact h
    · obtain ⟨ht, ho⟩ := unless_ok ho
      cases ho
      exact h.ilock (of_decide_eq_true hl) ht
  | writei i src off n =>
    rw [Fs.step] at ho
    split at ho
    · next ip hi =>
      obtain ⟨⟨s₁, ip₁, r⟩, h₁, he⟩ := bind_ok ho
      cases he
      exact h.writei hi h₁
    · cases ho
  | readi i off n =>
    rw [Fs.step] at ho
    split at ho
    · next ip hi =>
      obtain ⟨⟨s₁, ip₁, dst, r⟩, h₁, he⟩ := bind_ok ho
      cases he
      obtain ⟨rfl, rfl⟩ := h.readi hi h₁
      rwa [cache_of_cached hi]
    · cases ho
  | itrunc i =>
    rw [Fs.step] at ho
    split at ho
    · next ip hi =>
      obtain ⟨s₁, h₁, hw⟩ := h.itrunc hi
      rw [h₁] at ho
      cases ho
      exact hw
    · cases ho
  | iput i =>
    rw [Fs.step] at ho
    split at ho
    · next ip hi =>
      obtain ⟨s₁, h₁, hw⟩ := h.iput hi
      cases h₁.symm.trans ho
      exact hw
    · cases ho
      exact h
  | setMeta i major minor nlink =>
    rw [Fs.step] at ho
    split at ho
    · next ip hi =>
      cases ho
      have hf := h.fits hi
      exact h.setMeta hi rfl ⟨hf.type, major.toNat_lt, minor.toNat_lt, nlink.toNat_lt, hf.size,
        hf.addrs⟩
    · cases ho
  | recycle i =>
    cases ho
    exact h.recycle i

/-- What stops an operation: no space, an inode not in use, or not locked. -/
theorem WellFormed.step_error (h : WellFormed s) (ho : Fs.step devsw s op = .error e) :
    e = .panic "balloc: out of blocks" ∨ e = .panic "ialloc: no inodes" ∨
      e = .panic "ilock: no type" ∨ e = .blocked := by
  cases op with
  | ialloc type =>
    obtain ho | ⟨_, _, ho⟩ := bind_error ho
    · rw [Fs.ialloc] at ho
      split at ho
      · cases ho
      · cases ho
        exact .inr (.inl rfl)
    · cases ho
  | ilock i =>
    rw [Fs.step] at ho
    split at ho
    · cases ho
    · split at ho
      · cases ho
        exact .inr (.inr (.inl rfl))
      · cases ho
  | writei i src off n =>
    rw [Fs.step] at ho
    split at ho
    · obtain ho | ⟨_, _, ho⟩ := bind_error ho
      · exact .inl (writei_error ho)
      · cases ho
    · cases ho
      exact .inr (.inr (.inr rfl))
  | readi i off n =>
    rw [Fs.step] at ho
    split at ho
    · next ip hi =>
      obtain ho | ⟨_, _, ho⟩ := bind_error ho
      · exact .inl (h.readi_error hi ho)
      · cases ho
    · cases ho
      exact .inr (.inr (.inr rfl))
  | itrunc i =>
    rw [Fs.step] at ho
    split at ho
    · next ip hi =>
      obtain ⟨s₁, h₁, -⟩ := h.itrunc hi
      rw [h₁] at ho
      cases ho
    · cases ho
      exact .inr (.inr (.inr rfl))
  | iput i =>
    rw [Fs.step] at ho
    split at ho
    · next ip hi =>
      obtain ⟨s₁, h₁, -⟩ := h.iput hi
      cases h₁.symm.trans ho
    · cases ho
  | setMeta i major minor nlink =>
    rw [Fs.step] at ho
    split at ho
    · cases ho
    · cases ho
      exact .inr (.inr (.inr rfl))
  | recycle i => cases ho

/-- A data block is in use just when one slot of one inode holds it. -/
theorem WellFormed.held (h : WellFormed s) (hb : InData s.sb b) : s.bit b = true ↔
    ∃! x : Nat × Nat, ∃ ip, s.allocated x.1 = some ip ∧ slotAddr s.blocks ip x.2 = b := by
  have hpos := h.sound.layout.pos_of_data hb
  rw [h.sound.owns.exact b hb]
  constructor
  · rintro ⟨x, hx⟩
    obtain ⟨ip, hip, ha, -⟩ := own_eq_some.1 hx
    refine ⟨x, ⟨ip, hip, ha⟩, ?_⟩
    rintro y ⟨jp, hjp, hy⟩
    exact h.sound.owns.unique y x b (own_eq_some.2 ⟨jp, hjp, hy, hpos⟩) hx
  · rintro ⟨x, ⟨ip, hip, ha⟩, -⟩
    exact ⟨x, own_eq_some.2 ⟨ip, hip, ha, hpos⟩⟩

/-- No block is ever lost or held twice, and no free block is freed. -/
theorem block_ownership (h₀ : WellFormed s₀)
    (h : Exec (step devsw) (fun s op => legal s op) s₀ ops s) :
    WellFormed s ∧
      (∀ b, InData s.sb b → (s.bit b = true ↔ ∃! x : Nat × Nat,
        ∃ ip, s.allocated x.1 = some ip ∧ slotAddr s.blocks ip x.2 = b)) ∧
      ∀ op e, step devsw s op = .error e → e ≠ .panic "freeing free block" ∧
        (e = .panic "balloc: out of blocks" ∨ e = .panic "ialloc: no inodes" ∨
          e = .panic "ilock: no type" ∨ e = .blocked) := by
  have hw : WellFormed s := h.invariant h₀ fun _ _ _ hw hl ho => hw.step hl ho
  refine ⟨hw, fun b hb => hw.held hb, ?_⟩
  intro op e ho
  have he := hw.step_error ho
  refine ⟨?_, he⟩
  rintro rfl
  simp at he

theorem wellFormed_empty (hok : s.sb.Ok)
    (hzero : ∀ i, i < s.sb.ninodes → s.blocks (s.sb.iblock i) = fun _ => 0)
    (hbit : ∀ b, b < s.sb.size → s.bit b = decide (b < s.sb.dataStart))
    (hcache : ∀ i, s.icache i = none) : WellFormed s := by
  have hnone : s.allocated = fun _ => none := by
    funext i
    rw [St.allocated, if_neg]
    rintro ⟨hi, ht⟩
    apply ht
    rw [St.dinode, hzero i hi, readInode, getLE_zero]
  have hown : own s.blocks s.allocated = fun _ => none := by
    rw [hnone]
    rfl
  refine ⟨⟨hok, ⟨?_, ?_, ?_⟩, ?_⟩, ?_, ?_⟩
  · intro x a hx
    rw [hown] at hx
    cases hx
  · intro x y a hx
    rw [hown] at hx
    cases hx
  · intro b hb
    rw [hown, hbit b hb.2]
    simp [Nat.not_lt_of_le hb.1]
  · intro b hb hlt
    rw [hbit b hlt]
    exact decide_eq_true hb
  · intro i ip hi
    rw [hnone] at hi
    cases hi
  · intro i ip hi
    rw [hcache] at hi
    cases hi

/-- A disk of eight blocks, one of inodes and one of bits, and no files. -/
def smallFs : St where
  sb := ⟨8, 4, 8, 2, 3⟩
  blocks := fun n k => if n = 3 ∧ k.val = 0 then 15 else 0
  icache := fun _ => none

theorem wellFormed_smallFs : WellFormed smallFs := by
  have hbit : ∀ b, b < 8 → smallFs.bit b = decide (b < 4) := by decide
  apply wellFormed_empty ⟨by decide, ?_, ?_⟩ _ hbit
  · intro i
    rfl
  · intro i hi
    have hi8 : i < 8 := hi
    have hlt : i / 8 + 2 < 3 := by omega
    exact hlt
  · intro b hb
    have hb8 : b < 8 := hb
    have hlt : b / 4096 + 3 < 4 := by omega
    exact hlt
  · intro i hi
    have hi8 : i < 8 := hi
    funext k
    apply if_neg
    rintro ⟨hk, -⟩
    have hib : i / 8 + 2 = 3 := hk
    omega

def fileRun : List Op :=
  [.ialloc 2, .ilock 1, .writei 1 (fun _ => 7) 0 600, .readi 1 512 10, .iput 1]

theorem block_ownership_fileRun :
    ∃ s, Exec (step fun _ => none) (fun s op => legal s op) smallFs fileRun s ∧
      WellFormed s := by
  have hr : (runLegal (step fun _ => none) legal smallFs fileRun).isSome = true := by
    decide +kernel
  obtain ⟨s, hs⟩ := Option.isSome_iff_exists.1 hr
  have he := exec_of_runLegal _ _ _ _ hs
  exact ⟨s, he, (block_ownership wellFormed_smallFs he).1⟩

end Xv6.Fs
