import Xv6.Vm.Loader
import Xv6.Vm.Plenty

namespace Xv6.Vm
open Lib
set_option autoImplicit true

structure Proghdr.Valid (ip : File) (ph : Proghdr) : Prop where
  filesz_le : ph.filesz ≤ ph.memsz
  pos : 0 < ph.vaddr + ph.memsz
  lt : ph.vaddr + ph.memsz < kernBase
  aligned : ph.vaddr % pgSize = 0
  inside : ph.off + ph.filesz ≤ ip.bytes.length

structure File.Valid (ip : File) : Prop where
  header : 52 ≤ ip.bytes.length
  magic : (elfhdr (ip.bytes.take 52)).magic = elfMagic
  headers : ∀ i, i < (elfhdr (ip.bytes.take 52)).phnum →
    ((elfhdr (ip.bytes.take 52)).phoff + i * 32) % 2 ^ 32 + 32 ≤ ip.bytes.length
  segment : ∀ ph ∈ segments ip, ph.Valid ip
  lt : newSize ip < kernBase

variable {L : Image} {k₀ k k' : Kmem} {d d' : Pgdir} {sz newsz off n s r : Nat} {f : Nat → UInt8}
  {ip : File} {argv : List (List UInt8)}

theorem loadLoop_frame {r : Int} (ho : loadLoop ip d addr off n fuel k i = .ok (k', r)) :
    k'.deny = k.deny ∧ k'.freelist = k.freelist := by
  induction fuel generalizing k i with
  | zero => cases ho
  | succ fuel ih =>
    rw [loadLoop] at ho
    split at ho
    · cases ho
      exact ⟨rfl, rfl⟩
    dsimp only at ho
    split at ho
    · cases ho
    generalize (if n - i < pgSize then n - i else pgSize) = m at ho
    split at ho
    · cases ho
      exact ⟨rfl, rfl⟩
    · obtain ⟨hd, hf⟩ := ih ho
      exact ⟨hd, hf⟩

theorem Ample.loaduvm {r : Int} (h : Ample k d s) (ho : loaduvm k d addr ip off n = .ok (k', r)) :
    Ample k' d s := by
  rw [Vm.loaduvm] at ho
  split at ho
  · cases ho
  · obtain ⟨hd, hf⟩ := loadLoop_frame ho
    rw [Ample, hd, hf]
    exact h

theorem Ample.extend (h : Ample k d s) (hnew : newsz < kernBase)
    (hs : pagesUp (max sz newsz) - pagesUp sz ≤ s) (ho : Vm.allocuvm L k d sz newsz = .ok (k', d', r)) :
    r = max sz newsz ∧ Ample k' d' (s - (pagesUp (max sz newsz) - pagesUp sz)) := by
  by_cases hle : sz ≤ newsz
  · rw [Nat.max_eq_right hle] at hs ⊢
    exact h.allocuvm hle hnew hs ho
  · have hlt := Nat.lt_of_not_le hle
    rw [Vm.allocuvm, if_neg (Nat.not_le.2 hnew), if_pos hlt] at ho
    cases ho
    rw [Nat.max_eq_left (Nat.le_of_lt hlt)]
    exact ⟨rfl, h.mono (Nat.sub_le _ _)⟩

theorem next_header (off i : Nat) : ((off + 32) % 2 ^ 32 + i * 32) % 2 ^ 32 = (off + (i + 1) * 32) % 2 ^ 32 := by
  omega

theorem loadSegments_some (h : Space L k₀ k d sz f allUser) (ha : Ample k d s)
    (hread : ∀ i, i < n → (off + i * 32) % 2 ^ 32 + 32 ≤ ip.bytes.length) (hoff : off < 2 ^ 32)
    (hvalid : ∀ ph ∈ loadable (headers ip n off), ph.Valid ip)
    (hs : pagesUp ((loadable (headers ip n off)).foldl Proghdr.extent sz) - pagesUp sz ≤ s) :
    ∃ k' d', loadSegments L ip n k d sz off =
        .ok (k', d', some ((loadable (headers ip n off)).foldl Proghdr.extent sz)) ∧
      Space L k₀ k' d' ((loadable (headers ip n off)).foldl Proghdr.extent sz)
        ((loadable (headers ip n off)).foldl (Proghdr.layer ip) f) allUser ∧
      Ample k' d' (s - (pagesUp ((loadable (headers ip n off)).foldl Proghdr.extent sz) - pagesUp sz)) := by
  induction n generalizing k d sz f off s with
  | zero => exact ⟨k, d, rfl, h, ha.mono (Nat.sub_le _ _)⟩
  | succ n ih =>
    have hfirst : off + 32 ≤ ip.bytes.length := by
      have hz := hread 0 (Nat.succ_pos _)
      omega
    have hread' (i : Nat) (hi : i < n) :
        ((off + 32) % 2 ^ 32 + i * 32) % 2 ^ 32 + 32 ≤ ip.bytes.length := by
      rw [next_header]
      exact hread (i + 1) (Nat.succ_lt_succ hi)
    have hoff' : (off + 32) % 2 ^ 32 < 2 ^ 32 := Nat.mod_lt _ (by decide)
    have hr : (readi ip off 32).2 = 32 := readi_ok hfirst
    obtain ⟨-, hbs⟩ := readi_full hr
    rw [loadSegments]
    dsimp only
    rw [if_neg (not_not.2 hr), hbs]
    rw [headers] at hvalid hs ⊢
    generalize hph : proghdr ((ip.bytes.drop off).take 32) = ph at hvalid hs ⊢
    have hphoff : ph.off < 2 ^ 32 := hph ▸ field_lt _ _ _
    by_cases htype : ph.type = elfProgLoad
    · have hcons : loadable (ph :: headers ip n ((off + 32) % 2 ^ 32)) =
          ph :: loadable (headers ip n ((off + 32) % 2 ^ 32)) :=
        List.filter_cons_of_pos (decide_eq_true htype)
      rw [hcons, List.foldl_cons] at hs ⊢
      rw [hcons] at hvalid
      have hv := hvalid ph List.mem_cons_self
      have hlt := hv.lt
      have hsum : (ph.vaddr + ph.memsz) % 2 ^ 32 = ph.vaddr + ph.memsz :=
        Nat.mod_eq_of_lt (Nat.lt_trans hlt (by decide))
      rw [if_neg (not_not.2 htype), if_neg (Nat.not_lt.2 hv.filesz_le), hsum,
        if_neg (Nat.not_lt.2 (Nat.le_add_right _ _))]
      have hmono := pagesUp_mono (le_foldl_extent (loadable (headers ip n ((off + 32) % 2 ^ 32)))
        (Proghdr.extent sz ph))
      have hmono' : pagesUp sz ≤ pagesUp (Proghdr.extent sz ph) := pagesUp_mono (Nat.le_max_left _ _)
      obtain ⟨k₁, d₁, r, ho, hr₁⟩ := h.allocuvm (fun _ _ => rfl) (ph.vaddr + ph.memsz)
      obtain ⟨hmax, ha₁⟩ := ha.extend hlt (by
        show pagesUp (Proghdr.extent sz ph) - pagesUp sz ≤ s
        omega) ho
      have hpos : r ≠ 0 := by
        have hge := Nat.le_max_right sz (ph.vaddr + ph.memsz)
        have hp := hv.pos
        omega
      obtain ⟨-, -, hs₁⟩ := hr₁.resolve_right fun hr => hpos hr.1
      subst hmax
      have hpage : ph.vaddr / pgSize * pgSize = ph.vaddr :=
        Nat.div_mul_cancel (Nat.dvd_of_mod_eq_zero hv.aligned)
      obtain ⟨k₂, r, ho₂, hr₂⟩ := hs₁.loaduvm ip (v := ph.vaddr / pgSize) (n := ph.filesz) hphoff (by
        rw [hpage]
        exact Nat.le_trans (Nat.add_le_add_left hv.filesz_le _) (Nat.le_max_right sz (ph.vaddr + ph.memsz)))
      rw [hpage] at ho₂ hr₂
      obtain ⟨rfl, -, hs₂⟩ := hr₂.resolve_right fun hr => by
        have hin := hv.inside
        have hbad := hr.2.1
        omega
      rw [ho, ok_bind]
      dsimp only
      rw [if_neg hpos, if_neg (not_not.2 hv.aligned), ho₂, ok_bind]
      dsimp only
      rw [if_neg (by decide)]
      have ha₂ := ha₁.loaduvm ho₂
      obtain ⟨k', d', ho', hs', ha'⟩ := ih hs₂ ha₂ hread' hoff'
        (fun x hx => hvalid x (List.mem_cons_of_mem _ hx)) (by
          show pagesUp ((loadable (headers ip n ((off + 32) % 2 ^ 32))).foldl Proghdr.extent
            (Proghdr.extent sz ph)) - pagesUp (Proghdr.extent sz ph) ≤
            s - (pagesUp (Proghdr.extent sz ph) - pagesUp sz)
          omega)
      refine ⟨k', d', ho', hs', ha'.mono ?_⟩
      show _ ≤ s - (pagesUp (Proghdr.extent sz ph) - pagesUp sz) -
        (pagesUp ((loadable (headers ip n ((off + 32) % 2 ^ 32))).foldl Proghdr.extent
          (Proghdr.extent sz ph)) - pagesUp (Proghdr.extent sz ph))
      omega
    · have hcons : loadable (ph :: headers ip n ((off + 32) % 2 ^ 32)) =
          loadable (headers ip n ((off + 32) % 2 ^ 32)) :=
        List.filter_cons_of_neg (by rw [decide_eq_true_iff]; exact htype)
      rw [hcons] at hvalid hs ⊢
      rw [if_pos htype]
      exact ih h ha hread' hoff' hvalid hs

theorem buildImage_some (h : Space L k₀ k d 0 (fun _ => 0) allUser) (hv : ip.Valid)
    (ha : Ample k d (pagesUp (newSize ip))) :
    ∃ k₁ d₁, Space L k₀ k₁ d₁ (newSize ip) ((segments ip).foldl (Proghdr.layer ip) fun _ => 0)
        (guarded (guardPage ip)) ∧
      ∀ argv, buildImage L ip (elfhdr (ip.bytes.take 52)) argv k d =
        pushStack k₁ d₁ argv (newSize ip) >>= fun x =>
          .ok (x.1, d₁, x.2.map fun sp => (newSize ip, sp)) := by
  have hsize : pagesUp (newSize ip) = guardPage ip + 2 := pagesUp_page _
  obtain ⟨k₁, d₁, ho₁, hs₁, ha₁⟩ := loadSegments_some h ha hv.headers (field_lt _ _ _) hv.segment (by
    show guardPage ip - pagesUp 0 ≤ pagesUp (newSize ip)
    omega)
  have ha₁ : Ample k₁ d₁ (pagesUp (newSize ip) - (guardPage ip - pagesUp 0)) := ha₁
  have hload : loadSegments L ip (elfhdr (ip.bytes.take 52)).phnum k d 0 (elfhdr (ip.bytes.take 52)).phoff =
      .ok (k₁, d₁, some ((segments ip).foldl Proghdr.extent 0)) := ho₁
  have hs₁ : Space L k₀ k₁ d₁ ((segments ip).foldl Proghdr.extent 0)
      ((segments ip).foldl (Proghdr.layer ip) fun _ => 0) allUser := hs₁
  have hround : pgRoundUp ((segments ip).foldl Proghdr.extent 0) = guardPage ip * pgSize :=
    pgRoundUp_eq (Nat.le_of_lt hs₁.lt)
  have hlt := hv.lt
  have hnew : (pgRoundUp ((segments ip).foldl Proghdr.extent 0) + 2 * pgSize) % 2 ^ 32 = newSize ip := by
    rw [hround, ← Nat.add_mul]
    exact Nat.mod_eq_of_lt (Nat.lt_trans hlt (by decide))
  obtain ⟨k₂, d₂, r, ho₂, hr₂⟩ := hs₁.allocStack (g := guardPage ip) rfl
  rw [hnew, hround] at ho₂
  have hle : guardPage ip * pgSize ≤ newSize ip := Nat.mul_le_mul_right _ (Nat.le_add_right _ _)
  obtain ⟨rfl, -⟩ := ha₁.allocuvm hle hlt (by
    rw [pagesUp_page, hsize]
    omega) ho₂
  have hpos : newSize ip ≠ 0 := Nat.ne_of_gt (Nat.mul_pos (Nat.succ_pos _) (by decide))
  obtain ⟨-, hs₂⟩ := hr₂.resolve_right fun hr => hpos hr.1
  have hguard : subWord (newSize ip) (2 * pgSize) = guardPage ip * pgSize := by
    have htwo : 2 * pgSize ≤ newSize ip := Nat.mul_le_mul_right _ (Nat.le_add_left _ _)
    rw [subWord_of_le htwo (Nat.lt_trans hlt (by decide)), newSize, ← Nat.sub_mul, Nat.add_sub_cancel]
  obtain ⟨d₃, ho₃, hs₃⟩ := hs₂.clearpteu (w := guardPage ip) (by omega)
  refine ⟨k₂, d₃, hs₃, fun argv => ?_⟩
  rw [buildImage, hload, ok_bind]
  dsimp only
  rw [hnew, hround, ho₂, ok_bind]
  dsimp only
  rw [if_neg hpos, hguard, ho₃, ok_bind]

theorem exec_some {t : Task} (ho : Owned L k t.proc.pgdir) (hv : ip.Valid) (hdeny : k.deny = [])
    (hlen : 1025 + pagesUp (newSize ip) ≤ k.freelist.length) :
    ∃ k₁ d₁, Space L k k₁ d₁ (newSize ip) ((segments ip).foldl (Proghdr.layer ip) fun _ => 0)
        (guarded (guardPage ip)) ∧
      (∀ path argv e, pushStack k₁ d₁ argv (newSize ip) = .error e →
        exec L k t path (some ip) argv = .error e) ∧
      ∀ path argv k₂ sp, pushStack k₁ d₁ argv (newSize ip) = .ok (k₂, some sp) →
        ∃ k' t', exec L k t path (some ip) argv = .ok (k', t', 0) := by
  have hr : (readi ip 0 52).2 = 52 := readi_ok (by rw [Nat.zero_add]; exact hv.header)
  obtain ⟨-, hbs⟩ := readi_full hr
  rw [List.drop_zero] at hbs
  obtain ⟨k₀, o, hset, -, -, hsome⟩ := setupkvm_spec ho.free
  obtain ⟨d, rfl, ha⟩ := setupkvm_some hdeny hlen hset
  obtain ⟨hkvm, hkernel⟩ := hsome d rfl
  obtain ⟨k₁, d₁, hs, hbuild⟩ := buildImage_some
    (hkvm.space hkernel (Multiset.nodup_add.1 ho.1).1 ho.free allUser) hv ha
  refine ⟨k₁, d₁, hs, ?_, ?_⟩
  · intro path argv e he
    rw [exec]
    dsimp only
    rw [if_neg (not_not.2 hr), hbs, if_neg (not_not.2 hv.magic), hset, ok_bind]
    dsimp only
    rw [hbuild, he]
    rfl
  · intro path argv k₂ sp hsp
    obtain ⟨k', hfree, -⟩ := freevm_spec (k := k₂) fun p hp => ho.2 p (Multiset.mem_add.2 (.inr hp))
    refine ⟨k', ⟨⟨d₁, newSize ip⟩, (elfhdr (ip.bytes.take 52)).entry, sp, (lastElem path path).take 15⟩, ?_⟩
    rw [exec]
    dsimp only
    rw [if_neg (not_not.2 hr), hbs, if_neg (not_not.2 hv.magic), hset, ok_bind]
    dsimp only
    rw [hbuild, hsp, ok_bind, ok_bind]
    dsimp only [Option.map_some]
    rw [hfree, ok_bind]

/-- With enough pages `exec` starts a valid file whose arguments fit. -/
theorem exec_starts {t : Task} (ho : Owned L k t.proc.pgdir) (hv : ip.Valid) (hdeny : k.deny = [])
    (hlen : 1025 + pagesUp (newSize ip) ≤ k.freelist.length) (hcount : argv.length ≤ maxArg)
    (hfits : stackBytes argv ≤ pgSize) (path : List UInt8) :
    ∃ k' t', exec L k t path (some ip) argv = .ok (k', t', 0) := by
  obtain ⟨k₁, d₁, hs, -, hstart⟩ := exec_some ho hv hdeny hlen
  rw [newSize_eq] at hs
  obtain ⟨k₂, o, hpush, hr⟩ := pushStack_spec rfl hs argv (by
    intro s hs
    have hle := length_lt_stackBytes hs
    simp only [pgSize] at hfits
    omega)
  rw [← newSize_eq] at hpush
  rcases hr with ⟨rfl, -⟩ | ⟨-, hbad, -⟩
  · exact hstart path argv k₂ _ hpush
  · omega

end Xv6.Vm
