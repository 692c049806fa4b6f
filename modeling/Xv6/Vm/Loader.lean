import Xv6.Fs.Contents
import Xv6.Vm.Argv

namespace Xv6.Vm
open Lib
set_option autoImplicit true

/-- The contents of a file of the file system. -/
def fileOf {s : Fs.St} {ip : Fs.Inode} (h : Fs.Intact s) (hi : s.inodes i = some ip) : File :=
  ⟨Fs.content s ip, by
    rw [Fs.length_content]
    exact Nat.lt_of_le_of_lt (h.size_le hi) (by decide)⟩

/-- `readi` of the file system reads the contents. -/
theorem readi_fileOf {s : Fs.St} {ip : Fs.Inode} (h : Fs.Intact s) (hi : s.inodes i = some ip)
    (ht : ip.type ≠ Fs.tDev) (devsw : Fs.Devsw) (off n : UInt32) :
    Fs.readi devsw s ip off n =
      .ok (s, ip, (readi (fileOf h hi) off.toNat n.toNat).1, (readi (fileOf h hi) off.toNat n.toNat).2) := by
  have hlen : (fileOf h hi).bytes.length = ip.size := Fs.length_content s ip
  have hadd : off + n < off ↔ (off.toNat + n.toNat) % 2 ^ 32 < off.toNat := by
    rw [UInt32.lt_iff_toNat_lt, UInt32.toNat_add]
  rw [Fs.readi_content h hi ht, readi, hlen]
  by_cases hbad : ip.size < off.toNat ∨ off + n < off
  · rw [if_pos hbad, if_pos (hbad.imp_right hadd.1)]
  · rw [if_neg hbad, if_neg fun h => hbad (h.imp_right hadd.2)]
    rfl

def headers (ip : File) : Nat → Nat → List Proghdr
  | 0, _ => []
  | n + 1, off => proghdr ((ip.bytes.drop off).take 32) :: headers ip n ((off + 32) % 2 ^ 32)

def loadable (phs : List Proghdr) : List Proghdr := phs.filter fun ph => ph.type = elfProgLoad

def segments (ip : File) : List Proghdr :=
  let elf := elfhdr (ip.bytes.take 52)
  loadable (headers ip elf.phnum elf.phoff)

/-- The size of the memory after one more segment. -/
def Proghdr.extent (sz : Nat) (ph : Proghdr) : Nat := max sz (ph.vaddr + ph.memsz)

/-- The part of the file that goes to a segment. -/
def Proghdr.filePart (ip : File) (ph : Proghdr) : List UInt8 := (ip.bytes.drop ph.off).take ph.filesz

def Proghdr.layer (ip : File) (f : Nat → UInt8) (ph : Proghdr) : Nat → UInt8 :=
  overlay f ph.vaddr (ph.filePart ip)

def Proghdr.covers (ph : Proghdr) (a : Nat) : Bool := ph.vaddr ≤ a ∧ a < ph.vaddr + ph.filesz

/-- The byte of the file that a segment has at address `a`. -/
def Proghdr.byte (ip : File) (a : Nat) (ph : Proghdr) : UInt8 := ip.bytes.getD (ph.off + (a - ph.vaddr)) 0

/-- The byte of the last segment whose file part covers address `a`, or 0. -/
def imageByte (ip : File) (phs : List Proghdr) (a : Nat) : UInt8 :=
  ((phs.reverse.find? (·.covers a)).map (Proghdr.byte ip a)).getD 0

/-- The page that the stack of a program follows. -/
def guardPage (ip : File) : Nat := pagesUp ((segments ip).foldl Proghdr.extent 0)

/-- The size of the memory of a program with its stack. -/
def newSize (ip : File) : Nat := (guardPage ip + 2) * pgSize

variable {L : Image} {k₀ k k' : Kmem} {d d' : Pgdir} {sz off n a : Nat} {f : Nat → UInt8}
  {ip : File} {argv : List (List UInt8)} {phs : List Proghdr} {ph : Proghdr}

theorem field_lt (bs : List UInt8) (off w : Nat) : field bs off w < 256 ^ w :=
  Nat.lt_of_lt_of_le (leNat_lt _) (Nat.pow_le_pow_right (by decide) (List.length_take_le _ _))

theorem Proghdr.layer_byte (hlen : (ph.filePart ip).length = ph.filesz) :
    ph.layer ip f a = if ph.covers a then ph.byte ip a else f a := by
  have hcov : ph.covers a = true ↔ ph.vaddr ≤ a ∧ a < ph.vaddr + ph.filesz := decide_eq_true_iff
  rw [Proghdr.layer]
  by_cases hc : ph.covers a = true
  · obtain ⟨h₁, h₂⟩ := hcov.1 hc
    rw [if_pos hc, overlay_inside h₁ (by omega), Proghdr.filePart, Proghdr.byte,
      List.getD_eq_getElem?_getD, List.getD_eq_getElem?_getD, List.getElem?_take, if_pos (by omega),
      List.getElem?_drop]
  · rw [if_neg hc, overlay, if_neg (by rw [hlen, ← hcov]; exact hc)]

theorem layers_eq (hlen : ∀ ph ∈ phs, (ph.filePart ip).length = ph.filesz) :
    phs.foldl (Proghdr.layer ip) (fun _ => 0) a = imageByte ip phs a := by
  induction phs using List.reverseRecOn with
  | nil => rfl
  | append_singleton phs ph ih =>
    have hph := hlen ph (List.mem_append_right _ List.mem_cons_self)
    rw [List.foldl_append, List.foldl_cons, List.foldl_nil, Proghdr.layer_byte hph,
      ih fun x hx => hlen x (List.mem_append_left _ hx), imageByte, imageByte, List.reverse_append,
      List.reverse_singleton, List.singleton_append, List.find?_cons]
    cases ph.covers a with
    | true => rfl
    | false => rfl

abbrev allUser : Nat → Bool := fun _ => true

theorem le_foldl_extent (phs : List Proghdr) (sz : Nat) : sz ≤ phs.foldl Proghdr.extent sz := by
  induction phs generalizing sz with
  | nil => exact Nat.le_refl _
  | cons ph phs ih => exact Nat.le_trans (Nat.le_max_left _ _) (ih _)

theorem loadSegments_spec (ip : File) (n off : Nat) (h : Space L k₀ k d sz f allUser) :
    ∃ k' d' o, loadSegments L ip n k d sz off = .ok (k', d', o) ∧
      (o = some ((loadable (headers ip n off)).foldl Proghdr.extent sz) ∧
          (∀ ph ∈ loadable (headers ip n off), (ph.filePart ip).length = ph.filesz) ∧
          Space L k₀ k' d' ((loadable (headers ip n off)).foldl Proghdr.extent sz)
            ((loadable (headers ip n off)).foldl (Proghdr.layer ip) f) allUser ∨
        o = none ∧ Held L k₀ k' d') := by
  induction n generalizing k d sz f off with
  | zero => exact ⟨k, d, some sz, rfl, .inl ⟨rfl, nofun, h⟩⟩
  | succ n ih =>
    rw [loadSegments]
    dsimp only
    by_cases hr : (readi ip off 32).2 = 32
    · obtain ⟨-, hbs⟩ := readi_full hr
      rw [if_neg (not_not.2 hr), hbs, headers]
      generalize hph : proghdr ((ip.bytes.drop off).take 32) = ph
      have hvaddr : ph.vaddr < 2 ^ 32 := hph ▸ field_lt _ _ _
      have hmemsz : ph.memsz < 2 ^ 32 := hph ▸ field_lt _ _ _
      have hoff : ph.off < 2 ^ 32 := hph ▸ field_lt _ _ _
      by_cases htype : ph.type = elfProgLoad
      · have hcons : loadable (ph :: headers ip n ((off + 32) % 2 ^ 32)) =
            ph :: loadable (headers ip n ((off + 32) % 2 ^ 32)) :=
          List.filter_cons_of_pos (decide_eq_true htype)
        rw [if_neg (not_not.2 htype), hcons]
        by_cases hfile : ph.memsz < ph.filesz
        · rw [if_pos hfile]
          exact ⟨k, d, none, rfl, .inr ⟨rfl, h.toHeld⟩⟩
        rw [if_neg hfile]
        by_cases hwrap : (ph.vaddr + ph.memsz) % 2 ^ 32 < ph.vaddr
        · rw [if_pos hwrap]
          exact ⟨k, d, none, rfl, .inr ⟨rfl, h.toHeld⟩⟩
        have hsum : (ph.vaddr + ph.memsz) % 2 ^ 32 = ph.vaddr + ph.memsz := by omega
        rw [if_neg hwrap, hsum]
        obtain ⟨k₁, d₁, r, ho, hr⟩ := h.allocuvm (fun _ _ => rfl) (ph.vaddr + ph.memsz)
        rw [ho, ok_bind]
        dsimp only
        by_cases hzero : r = 0
        · rw [if_pos hzero]
          refine ⟨k₁, d₁, none, rfl, .inr ⟨rfl, ?_⟩⟩
          rcases hr with ⟨-, -, hs⟩ | ⟨-, hh⟩
          · exact hs.toHeld
          · exact hh
        rw [if_neg hzero]
        obtain ⟨rfl, -, hs⟩ := hr.resolve_right fun hr => hzero hr.1
        by_cases halign : ph.vaddr % pgSize = 0
        · have hpage : ph.vaddr / pgSize * pgSize = ph.vaddr := Nat.div_mul_cancel (Nat.dvd_of_mod_eq_zero halign)
          obtain ⟨k₂, r, ho₂, hr₂⟩ := hs.loaduvm ip (v := ph.vaddr / pgSize) (n := ph.filesz) hoff (by
            rw [hpage]
            exact Nat.le_trans (by omega) (Nat.le_max_right sz (ph.vaddr + ph.memsz)))
          rw [hpage] at ho₂ hr₂
          rw [if_neg (not_not.2 halign), ho₂, ok_bind]
          dsimp only
          rcases hr₂ with ⟨rfl, hlen, hs₂⟩ | ⟨rfl, -, hh⟩
          · rw [if_neg (by decide)]
            obtain ⟨k', d', o, ho', hr'⟩ := ih ((off + 32) % 2 ^ 32) hs₂
            refine ⟨k', d', o, ho', hr'.imp_left ?_⟩
            rintro ⟨ho', hall, hs'⟩
            exact ⟨ho', List.forall_mem_cons.2 ⟨hlen, hall⟩, hs'⟩
          · rw [if_pos (by decide)]
            exact ⟨k₂, d₁, none, rfl, .inr ⟨rfl, hh⟩⟩
        · rw [if_pos halign]
          exact ⟨k₁, d₁, none, rfl, .inr ⟨rfl, hs.toHeld⟩⟩
      · have hcons : loadable (ph :: headers ip n ((off + 32) % 2 ^ 32)) =
            loadable (headers ip n ((off + 32) % 2 ^ 32)) :=
          List.filter_cons_of_neg (by rw [decide_eq_true_iff]; exact htype)
        rw [if_pos htype, hcons]
        exact ih _ h
    · rw [if_pos hr]
      exact ⟨k, d, none, rfl, .inr ⟨rfl, h.toHeld⟩⟩

theorem pagesUp_page (g : Nat) : pagesUp (g * pgSize) = g := by
  simp only [pagesUp, pgSize]
  omega

theorem Space.round {u : Nat → Bool} (h : Space L k₀ k d sz f u) (hlt : pagesUp sz * pgSize < kernBase) :
    Space L k₀ k d (pagesUp sz * pgSize) f u := by
  refine ⟨h.toHeld, hlt, ?_, ?_, ?_, h.kernel, h.hole⟩
  · rw [pagesUp_page]
    exact h.pages
  · rw [pagesUp_page]
    exact h.rest
  · rw [pagesUp_page]
    exact h.beyond

theorem Space.allocStack {g : Nat} (h : Space L k₀ k d sz f allUser) (hg : g = pagesUp sz) :
    ∃ k' d' r, Vm.allocuvm L k d (pgRoundUp sz) ((pgRoundUp sz + 2 * pgSize) % 2 ^ 32) = .ok (k', d', r) ∧
      (r = (g + 2) * pgSize ∧ Space L k₀ k' d' r f allUser ∨ r = 0 ∧ Held L k₀ k' d') := by
  have hround : pgRoundUp sz = g * pgSize := by rw [hg, pgRoundUp_eq (Nat.le_of_lt h.lt)]
  have hmax : g ≤ nUser := hg ▸ pagesUp_le (Nat.le_of_lt h.lt)
  have hnew : (pgRoundUp sz + 2 * pgSize) % 2 ^ 32 = (g + 2) * pgSize := by
    rw [hround, Nat.add_mul]
    apply Nat.mod_eq_of_lt
    simp only [nUser] at hmax
    simp only [pgSize]
    omega
  rw [hnew, hround]
  by_cases hlt : g * pgSize < kernBase
  · obtain ⟨k', d', r, ho, hr⟩ := (hg ▸ h.round (hg ▸ hlt)).allocuvm (fun _ _ => rfl) ((g + 2) * pgSize)
    refine ⟨k', d', r, ho, hr.imp_left ?_⟩
    rintro ⟨hr, -, hs⟩
    refine ⟨?_, hs⟩
    rw [hr, Nat.max_eq_right (Nat.mul_le_mul_right _ (Nat.le_add_right _ _))]
  · have hbig : kernBase ≤ (g + 2) * pgSize :=
      Nat.le_trans (Nat.le_of_not_lt hlt) (Nat.mul_le_mul_right _ (Nat.le_add_right _ _))
    rw [Vm.allocuvm, if_pos hbig]
    exact ⟨k, d, 0, rfl, .inr ⟨rfl, h.toHeld⟩⟩

def execImage (ip : File) (argv : List (List UInt8)) : Nat → UInt8 :=
  stackImage ((segments ip).foldl (Proghdr.layer ip) fun _ => 0) (newSize ip) argv

/-- No argument takes the stack pointer below the devices of the kernel. -/
def Reaches (ip : File) (argv : List (List UInt8)) : Prop :=
  ∀ s ∈ argv, s.length + 1 + pgSize ≤ newSize ip + 2 ^ 25

theorem newSize_eq (ip : File) : newSize ip = (guardPage ip + 1) * pgSize + pgSize := Nat.succ_mul _ _

/-- `exec` makes the memory of the program and its stack, or fails. -/
theorem buildImage_spec (h : Space L k₀ k d 0 (fun _ => 0) allUser) (hargs : Reaches ip argv) :
    ∃ k' d' o, buildImage L ip (elfhdr (ip.bytes.take 52)) argv k d = .ok (k', d', o) ∧
      (o = some (newSize ip, newSize ip - stackBytes argv) ∧ argv.length ≤ maxArg ∧
          stackBytes argv ≤ pgSize ∧
          (∀ ph ∈ segments ip, (ph.filePart ip).length = ph.filesz) ∧
          Space L k₀ k' d' (newSize ip) (execImage ip argv) (guarded (guardPage ip)) ∨
        o = none ∧ Held L k₀ k' d') := by
  obtain ⟨k₁, d₁, o, ho, hr⟩ := loadSegments_spec ip (elfhdr (ip.bytes.take 52)).phnum
    (elfhdr (ip.bytes.take 52)).phoff h
  rw [buildImage, ho, ok_bind]
  rcases hr with ⟨rfl, hlen, hs⟩ | ⟨rfl, hh⟩
  · obtain ⟨k₂, d₂, r, ho₂, hr₂⟩ := hs.allocStack (g := guardPage ip) rfl
    dsimp only
    rw [ho₂, ok_bind]
    dsimp only
    rcases hr₂ with ⟨rfl, hs₂⟩ | ⟨rfl, hh⟩
    · have hpos : (guardPage ip + 2) * pgSize ≠ 0 := Nat.ne_of_gt (Nat.mul_pos (Nat.succ_pos _) (by decide))
      have hguard : subWord ((guardPage ip + 2) * pgSize) (2 * pgSize) = guardPage ip * pgSize := by
        rw [subWord_of_le (Nat.mul_le_mul_right _ (Nat.le_add_left _ _)) (Nat.lt_trans hs₂.lt (by decide)),
          ← Nat.sub_mul, Nat.add_sub_cancel]
      obtain ⟨d₃, ho₃, hs₃⟩ := hs₂.clearpteu (w := guardPage ip) (by
        rw [pagesUp_page]
        omega)
      rw [if_neg hpos, hguard, ho₃, ok_bind]
      have hs₄ : Space L k₀ k₂ d₃ ((guardPage ip + 1) * pgSize + pgSize)
          ((segments ip).foldl (Proghdr.layer ip) fun _ => 0) (guarded (guardPage ip)) := by
        rw [← newSize_eq]
        exact hs₃
      obtain ⟨k', o, ho₄, hr₄⟩ := pushStack_spec rfl hs₄ argv (by
        intro s hs
        have hle := hargs s hs
        rw [newSize_eq] at hle
        omega)
      rw [← newSize_eq] at ho₄ hr₄
      have ho₄ : pushStack k₂ d₃ argv ((guardPage ip + 2) * pgSize) = .ok (k', o) := ho₄
      rw [ho₄, ok_bind]
      rcases hr₄ with ⟨rfl, hcount, hfit, hs'⟩ | ⟨rfl, -, hh⟩
      · exact ⟨k', d₃, _, rfl, .inl ⟨rfl, hcount, hfit, hlen, hs'⟩⟩
      · exact ⟨k', d₃, none, rfl, .inr ⟨rfl, hh⟩⟩
    · rw [if_pos rfl]
      exact ⟨k₂, d₂, none, rfl, .inr ⟨rfl, hh⟩⟩
  · exact ⟨k₁, d₁, none, rfl, .inr ⟨rfl, hh⟩⟩

/-- What `exec` leaves when it returns 0. -/
structure Started (k k' : Kmem) (t t' : Task) (ip : File) (argv : List (List UInt8)) : Prop where
  sz : t'.proc.sz = newSize ip
  esp : t'.esp = newSize ip - stackBytes argv
  fits : stackBytes argv ≤ pgSize
  count : argv.length ≤ maxArg
  lt : newSize ip < kernBase
  filePart : ∀ ph ∈ segments ip, (ph.filePart ip).length = ph.filesz
  present : ∀ w, w < nUser → ((t'.proc.pgdir.at w).isSome ↔ w * pgSize < t'.proc.sz)
  bytes : ∀ a, a < newSize ip → load k' t'.proc.pgdir a = some (execImage ip argv a)
  books : k.free + t.proc.pgdir.pages = k'.free + t'.proc.pgdir.pages
  data : ∀ p, p ∉ k.free → p ∉ t.proc.pgdir.pages → k'.data p = k.data p

/-- `exec` leaves all as it was, or starts the program. -/
theorem exec_spec {t : Task} (ho : Owned L k t.proc.pgdir) (hargs : Reaches ip argv) (path : List UInt8) :
    ∃ k' t' r, exec L k t path (some ip) argv = .ok (k', t', r) ∧
      (r = -1 ∧ t' = t ∧ k'.free = k.free ∧ (∀ p, p ∉ k.free → k'.data p = k.data p) ∨
        r = 0 ∧ Started k k' t t' ip argv) := by
  rw [exec]
  dsimp only
  by_cases hr : (readi ip 0 52).2 = 52
  · obtain ⟨-, hbs⟩ := readi_full hr
    rw [List.drop_zero] at hbs
    rw [if_neg (not_not.2 hr), hbs]
    by_cases hmagic : (elfhdr (ip.bytes.take 52)).magic = elfMagic
    · rw [if_neg (not_not.2 hmagic)]
      obtain ⟨k₁, o, hset, hdata, hnone, hsome⟩ := setupkvm_spec ho.free
      rw [hset, ok_bind]
      cases o with
      | none => exact ⟨k₁, t, -1, rfl, .inl ⟨rfl, rfl, hnone rfl, hdata⟩⟩
      | some d =>
        obtain ⟨hkvm, hkernel⟩ := hsome d rfl
        have hspace := hkvm.space hkernel (Multiset.nodup_add.1 ho.1).1 ho.free allUser
        obtain ⟨k₂, d₂, o, hbuild, hr⟩ := buildImage_spec hspace hargs
        dsimp only
        rw [hbuild, ok_bind]
        rcases hr with ⟨rfl, hcount, hfit, hlen, hs⟩ | ⟨rfl, hh⟩
        · obtain ⟨k₃, hfree, hf, hd⟩ := freevm_spec (k := k₂) fun p hp =>
            ho.2 p (Multiset.mem_add.2 (.inr hp))
          have hpage {p : Nat} (hp : p ∈ d₂.pages) : p ∉ t.proc.pgdir.pages := by
            intro hm
            exact Multiset.disjoint_left.1 (Multiset.nodup_add.1 ho.1).2.2 (hs.mem_pages hp) hm
          dsimp only
          rw [hfree, ok_bind]
          refine ⟨k₃, _, 0, rfl, .inr ⟨rfl, rfl, rfl, hfit, hcount, hs.lt, hlen, ?_, ?_, ?_, ?_⟩⟩
          · intro w hw
            show _ ↔ w * pgSize < newSize ip
            rw [page_lt]
            by_cases hin : w < pagesUp (newSize ip)
            · obtain ⟨p, hp, -⟩ := hs.pages w hin
              exact iff_of_true (by rw [hp]; rfl) hin
            · rw [hs.rest w (Nat.le_of_not_lt hin) hw]
              exact iff_of_false nofun hin
          · intro a ha
            have hin : a / pgSize < pagesUp (newSize ip) := by
              rw [← page_lt]
              exact Nat.lt_of_le_of_lt (Nat.div_mul_le_self _ _) ha
            obtain ⟨p, hp, -, hmem, hbyte⟩ := hs.entry hin
            rw [load, pte_page, hp, Option.map_some, hd p (hpage hmem), hbyte _ (Nat.mod_lt _ (by decide)),
              Nat.div_add_mod']
          · show _ = k₃.free + d₂.pages
            rw [hf, hs.books]
            abel
          · intro p h₁ h₂
            rw [hd p h₂, hs.data p h₁]
        · obtain ⟨k₃, hfree, hf, hd⟩ := hh.freevm
          dsimp only
          rw [hfree, ok_bind]
          exact ⟨k₃, t, -1, rfl, .inl ⟨rfl, rfl, hf, hd⟩⟩
    · rw [if_pos hmagic]
      exact ⟨k, t, -1, rfl, .inl ⟨rfl, rfl, rfl, fun _ _ => rfl⟩⟩
  · rw [if_pos hr]
    exact ⟨k, t, -1, rfl, .inl ⟨rfl, rfl, rfl, fun _ _ => rfl⟩⟩

end Xv6.Vm
