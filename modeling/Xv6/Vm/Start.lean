import Xv6.Vm.Copy
import Xv6.Vm.Success

namespace Xv6.Vm
open Lib
set_option autoImplicit true

variable {L : Image} {k k' : Kmem} {d : Pgdir} {t t' : Task} {a i n v : Nat} {f : Nat → UInt8}
  {ip : File} {s bs : List UInt8} {argv : List (List UInt8)}

theorem le_newSize (ip : File) : 2 * pgSize ≤ newSize ip :=
  Nat.mul_le_mul_right _ (Nat.le_add_left _ _)

theorem Started.image (h : Started k k' t t' ip argv) (ha : a + 2 * pgSize < t'.proc.sz) :
    load k' t'.proc.pgdir a = some (imageByte ip (segments ip) a) := by
  have hsz := h.sz
  have hfits := h.fits
  have hbytes : stackBytes argv = argBytes argv + (argv.length + 4) * 4 := rfl
  rw [h.bytes a (by omega), execImage, stackImage, overlay_of_lt (by omega),
    pushStrings_of_lt (by omega) (by omega), layers_eq h.filePart]

theorem reaches_of_le (h : ∀ s ∈ argv, s.length + 1 ≤ 2 ^ 25) (ip : File) : Reaches ip argv := by
  intro s hs
  have hle := le_newSize ip
  have hs := h s hs
  omega

/-- `exec` leaves all as it was, or the memory holds the segments and nothing else. -/
theorem exec_safe {L : Image} {k : Kmem} {t : Task} {argv : List (List UInt8)}
    (ho : Owned L k t.proc.pgdir) (hfits : stackBytes argv ≤ pgSize) (path : List UInt8)
    (file : Option File) :
    ∃ k' t' r, exec L k t path file argv = .ok (k', t', r) ∧
      (r = -1 ∧ t' = t ∧ k'.free = k.free ∧ (∀ p, p ∉ k.free → k'.data p = k.data p) ∨
        r = 0 ∧ ∃ ip, file = some ip ∧ t'.proc.sz = newSize ip ∧ t'.proc.sz < kernBase ∧
          (∀ w, w < nUser → ((t'.proc.pgdir.at w).isSome ↔ w * pgSize < t'.proc.sz)) ∧
          ∀ a, a + 2 * pgSize < t'.proc.sz →
            load k' t'.proc.pgdir a = some (imageByte ip (segments ip) a)) := by
  cases file with
  | none => exact ⟨k, t, -1, rfl, .inl ⟨rfl, rfl, rfl, fun _ _ => rfl⟩⟩
  | some ip =>
    have hargs : Reaches ip argv := by
      apply reaches_of_le
      intro s hs
      have hle := length_lt_stackBytes hs
      simp only [pgSize] at hfits
      omega
    obtain ⟨k', t', r, hexec, hr⟩ := exec_spec ho hargs path
    refine ⟨k', t', r, hexec, hr.imp_right ?_⟩
    rintro ⟨hr, hs⟩
    exact ⟨hr, ip, rfl, hs.sz, hs.sz ▸ hs.lt, hs.present, fun a ha => hs.image ha⟩

def tinyProgram : File :=
  ⟨[0x7F, 0x45, 0x4C, 0x46] ++ List.replicate 24 0 ++ leBytes 4 52 ++ List.replicate 12 0 ++
    leBytes 2 1 ++ List.replicate 6 0 ++
    [1, 84, 0, 0, 1, 1, 7, 4096].flatMap (leBytes 4) ++ [0x90], by decide⟩

theorem segments_tinyProgram : segments tinyProgram = [⟨1, 84, 0, 1, 1⟩] := by rfl

theorem newSize_tinyProgram : newSize tinyProgram = 12288 := by
  rw [newSize, guardPage, segments_tinyProgram]
  rfl

theorem valid_tinyProgram : tinyProgram.Valid := by
  refine ⟨by decide, by decide, by decide, ?_, ?_⟩
  · rw [segments_tinyProgram]
    intro ph hph
    obtain rfl := List.mem_singleton.1 hph
    exact ⟨by decide, by decide, by decide, by decide, by decide⟩
  · rw [newSize_tinyProgram]
    decide

def caller : Task := ⟨⟨onePage, 4096⟩, 0, 0, []⟩

theorem owned_caller : Owned smallImage manyLeft caller.proc.pgdir := owned_manyLeft

theorem exec_tinyProgram (hcount : argv.length ≤ maxArg) (hfits : stackBytes argv ≤ pgSize) (path : List UInt8) :
    ∃ k' t', exec smallImage manyLeft caller path (some tinyProgram) argv = .ok (k', t', 0) := by
  apply exec_starts owned_caller valid_tinyProgram rfl _ hcount hfits
  rw [newSize_tinyProgram, manyLeft, List.length_range']
  decide

theorem exec_safe_tinyProgram : ∃ k' t',
    exec smallImage manyLeft caller [47, 97] (some tinyProgram) [[97]] = .ok (k', t', 0) ∧
      t'.proc.sz = 12288 ∧ load k' t'.proc.pgdir 0 = some 0x90 := by
  have hfits : stackBytes [[97]] ≤ pgSize := by decide
  obtain ⟨k', t', hstart⟩ := exec_tinyProgram (by decide) hfits [47, 97]
  obtain ⟨k₁, t₁, r, hexec, hr⟩ := exec_safe owned_caller hfits [47, 97] (some tinyProgram)
  cases hstart.symm.trans hexec
  rcases hr with ⟨hr, -⟩ | ⟨-, ip, hip, hsz, -, -, hbytes⟩
  · exact absurd hr (by decide)
  · obtain rfl := Option.some.inj hip
    rw [newSize_tinyProgram] at hsz
    refine ⟨k', t', hstart, hsz, ?_⟩
    rw [hbytes 0 (by rw [hsz]; decide), segments_tinyProgram]
    rfl

def loadBytes (k : Kmem) (d : Pgdir) : Nat → Nat → Option (List UInt8)
  | _, 0 => some []
  | a, n + 1 => do
    let b ← load k d a
    let bs ← loadBytes k d (a + 1) n
    some (b :: bs)

def loadWord (k : Kmem) (d : Pgdir) (a : Nat) : Option Nat := (loadBytes k d a 4).map leNat

/-- The string at a virtual address, if it ends within `n` bytes. -/
def loadString (k : Kmem) (d : Pgdir) : Nat → Nat → Option (List UInt8)
  | _, 0 => none
  | a, n + 1 => do
    let b ← load k d a
    if b = 0 then some []
    else do
      let s ← loadString k d (a + 1) n
      some (b :: s)

theorem loadBytes_of_stored (h : Stored f a bs)
    (hload : ∀ x, a ≤ x → x < a + bs.length → load k d x = some (f x)) :
    loadBytes k d a bs.length = some bs := by
  induction bs generalizing a with
  | nil => rfl
  | cons b bs ih =>
    have hb : f a = b := h 0 b rfl
    rw [List.length_cons] at hload ⊢
    rw [loadBytes, hload a (Nat.le_refl _) (by omega), hb,
      ih h.tail fun x h₁ h₂ => hload x (by omega) (by omega)]
    rfl

theorem loadString_of_stored (h : Stored f a (s ++ [0])) (hs : (0 : UInt8) ∉ s)
    (hload : ∀ x, a ≤ x → x < a + (s.length + 1) → load k d x = some (f x)) :
    loadString k d a (s.length + 1) = some s := by
  induction s generalizing a with
  | nil =>
    have hb : f a = 0 := h 0 0 rfl
    rw [loadString, hload a (Nat.le_refl _) (by omega), hb]
    rfl
  | cons b s ih =>
    rw [List.length_cons] at hload
    have hb : f a = b := h 0 b rfl
    have hne : b ≠ 0 := fun hb => hs (hb ▸ List.mem_cons_self)
    rw [List.length_cons, loadString, hload a (Nat.le_refl _) (by omega), hb]
    show (if b = 0 then _ else _) = _
    rw [if_neg hne, ih h.tail (fun hm => hs (List.mem_cons_of_mem _ hm))
      fun x h₁ h₂ => hload x (by omega) (by omega)]
    rfl

/-- The arguments of a program on its stack, in the last page. -/
structure ArgStack (k : Kmem) (d : Pgdir) (sz sp : Nat) (argv : List (List UInt8)) (ptrs : List Nat) :
    Prop where
  count : ptrs.length = argv.length
  page : sz ≤ sp + pgSize
  pc : loadWord k d sp = some 0xffffffff
  argc : loadWord k d (sp + 4) = some argv.length
  vector : loadWord k d (sp + 8) = some (sp + 12)
  pointer : ∀ (i p : Nat), ptrs[i]? = some p → loadWord k d (sp + 12 + i * 4) = some p
  null : loadWord k d (sp + 12 + argv.length * 4) = some 0
  aligned : ∀ p ∈ ptrs, p % 4 = 0
  string : ∀ (i : Nat) s p, argv[i]? = some s → ptrs[i]? = some p → loadString k d p (s.length + 1) = some s
  above : ∀ p ∈ ptrs, sp + 16 + argv.length * 4 ≤ p
  below : ∀ (i : Nat) s p, argv[i]? = some s → ptrs[i]? = some p → p + s.length + 1 ≤ sz
  apart : ∀ (i j : Nat) s p q, i < j → argv[j]? = some s → ptrs[j]? = some p → ptrs[i]? = some q →
    p + s.length + 1 ≤ q

section Started
variable (h : Started k k' t t' ip argv)
include h

theorem Started.room : argBytes argv + (argv.length + 4) * 4 + t'.esp = newSize ip := by
  have hesp := h.esp
  have hfits := h.fits
  have hle := le_newSize ip
  have hbytes : stackBytes argv = argBytes argv + (argv.length + 4) * 4 := rfl
  omega

theorem Started.word (hv : (ustack (newSize ip - argBytes argv) (argAddrs (newSize ip) argv))[i]? = some v)
    (hlt : v < 2 ^ 32) : loadWord k' t'.proc.pgdir (t'.esp + i * 4) = some v := by
  have hroom := h.room
  have hstored := (stored_overlay (pushStrings ((segments ip).foldl (Proghdr.layer ip) fun _ => 0)
    (newSize ip) argv) t'.esp
    ((ustack (newSize ip - argBytes argv) (argAddrs (newSize ip) argv)).flatMap (leBytes 4))).word hv
  rw [h.esp] at hstored
  have hi : i < argv.length + 4 := by
    obtain ⟨hi, -⟩ := List.getElem?_eq_some_iff.1 hv
    rw [ustack, List.length_append, List.length_append, length_argAddrs] at hi
    simp only [List.length_cons, List.length_nil] at hi
    omega
  have hlen : (leBytes 4 v).length = 4 := length_leBytes 4 v
  have hbytes := loadBytes_of_stored hstored fun x h₁ h₂ => h.bytes x (by
    rw [← h.esp] at h₂
    omega)
  rw [hlen, ← h.esp] at hbytes
  rw [loadWord, hbytes, Option.map_some, leNat_leBytes]
  exact congrArg some (Nat.mod_eq_of_lt hlt)

theorem Started.argStack (hnul : ∀ s ∈ argv, (0 : UInt8) ∉ s) :
    ArgStack k' t'.proc.pgdir t'.proc.sz t'.esp argv (argAddrs (newSize ip) argv) := by
  have hroom := h.room
  have hlt : newSize ip < 2 ^ 31 := h.lt
  have hcount := length_argAddrs (newSize ip) argv
  have hfit : argBytes argv ≤ newSize ip := by omega
  have halign : newSize ip % 4 = 0 := by
    simp only [newSize, pgSize]
    omega
  have hptr {i p : Nat} (hp : (argAddrs (newSize ip) argv)[i]? = some p) :
      ∃ s, argv[i]? = some s ∧ p + s.length + 1 ≤ newSize ip := by
    obtain ⟨hi, -⟩ := List.getElem?_eq_some_iff.1 hp
    rw [hcount] at hi
    exact ⟨argv[i], List.getElem?_eq_getElem hi, argAddrs_le hfit (List.getElem?_eq_getElem hi) hp⟩
  have hvector : (ustack (newSize ip - argBytes argv) (argAddrs (newSize ip) argv)) =
      [0xffffffff, argv.length, t'.esp + 12] ++ argAddrs (newSize ip) argv ++ [0] := by
    have hthird : subWord (newSize ip - argBytes argv) ((argv.length + 1) * 4) = t'.esp + 12 := by
      rw [subWord_of_le (by omega) (by omega)]
      omega
    rw [ustack, hcount, hthird]
  refine ⟨hcount, ?_, ?_, ?_, ?_, ?_, ?_, ?_, ?_, ?_, ?_, ?_⟩
  · rw [h.sz]
    have hfits := h.fits
    have hbytes : stackBytes argv = argBytes argv + (argv.length + 4) * 4 := rfl
    omega
  · exact h.word (i := 0) (by rw [hvector]; rfl) (by decide)
  · exact h.word (i := 1) (by rw [hvector]; rfl) (by omega)
  · exact h.word (i := 2) (by rw [hvector]; rfl) (by omega)
  · intro i p hp
    obtain ⟨s, -, hle⟩ := hptr hp
    obtain ⟨hi, -⟩ := List.getElem?_eq_some_iff.1 hp
    have hword := h.word (i := i + 3) (v := p) (by
      rw [hvector, List.append_assoc]
      show (argAddrs (newSize ip) argv ++ [0])[i]? = some p
      rw [List.getElem?_append_left hi, hp]) (by omega)
    rwa [Nat.add_mul, Nat.add_comm (i * 4), ← Nat.add_assoc] at hword
  · have hword := h.word (i := 3 + argv.length) (v := 0) (by
      rw [hvector, List.getElem?_append_right (by
        rw [List.length_append, hcount]
        exact Nat.le_refl _), List.length_append, hcount]
      show ([0] : List Nat)[3 + argv.length - (3 + argv.length)]? = _
      rw [Nat.sub_self]
      rfl) (by decide)
    rwa [Nat.add_mul, ← Nat.add_assoc] at hword
  · intro p hp
    obtain ⟨i, hi⟩ := List.mem_iff_getElem?.1 hp
    obtain ⟨s, hs, -⟩ := hptr hi
    exact (stored_pushStrings (f := fun _ => 0) hfit halign hs hi).2.1
  · intro i s p hs hp
    obtain ⟨hst, -, hge⟩ := stored_pushStrings
      (f := (segments ip).foldl (Proghdr.layer ip) fun _ => 0) hfit halign hs hp
    have hle := argAddrs_le hfit hs hp
    have hstored : Stored (execImage ip argv) p (s ++ [0]) := by
      apply hst.overlay
      right
      rw [length_ustack, hcount, ← h.esp]
      omega
    apply loadString_of_stored hstored (hnul s (List.mem_of_getElem? hs))
    exact fun x h₁ h₂ => h.bytes x (by omega)
  · intro p hp
    obtain ⟨i, hi⟩ := List.mem_iff_getElem?.1 hp
    obtain ⟨s, hs, -⟩ := hptr hi
    have hge := (stored_pushStrings (f := fun _ => 0) hfit halign hs hi).2.2
    omega
  · intro i s p hs hp
    rw [h.sz]
    exact argAddrs_le hfit hs hp
  · exact fun i j s p q hij hs hp hq => argAddrs_apart hfit hij hs hp hq

end Started

/-- The program finds its arguments on the stack; when they do not fit, `exec` fails and the caller
is as it was. -/
theorem exec_argv {L : Image} {k : Kmem} {t : Task} {ip : File} {argv : List (List UInt8)}
    (ho : Owned L k t.proc.pgdir) (hnul : ∀ s ∈ argv, (0 : UInt8) ∉ s)
    (hroom : stackBytes argv < newSize ip) (path : List UInt8) :
    ∃ k' t' r, exec L k t path (some ip) argv = .ok (k', t', r) ∧
      (r = 0 ∧ t'.proc.sz = newSize ip ∧
          (∃ ptrs, ArgStack k' t'.proc.pgdir t'.proc.sz t'.esp argv ptrs) ∨
        r = -1 ∧ t' = t ∧ k'.free = k.free ∧ ∀ p, p ∉ k.free → k'.data p = k.data p) ∧
      (pgSize < stackBytes argv → r = -1 ∧ t' = t) := by
  have hargs : Reaches ip argv := by
    intro s hs
    have hle := length_lt_stackBytes hs
    simp only [pgSize]
    omega
  obtain ⟨k', t', r, hexec, hr⟩ := exec_spec ho hargs path
  refine ⟨k', t', r, hexec, ?_, ?_⟩
  · rcases hr with hr | ⟨hr, hs⟩
    · exact .inr hr
    · exact .inl ⟨hr, hs.sz, _, hs.argStack hnul⟩
  · intro hbig
    rcases hr with ⟨hr, ht, -⟩ | ⟨-, hs⟩
    · exact ⟨hr, ht⟩
    · exact absurd hs.fits (Nat.not_le.2 hbig)

theorem exec_argv_tinyProgram : ∃ k' t' ptrs,
    exec smallImage manyLeft caller [47, 97] (some tinyProgram) [[97], [98, 99]] = .ok (k', t', 0) ∧
      t'.proc.sz = 12288 ∧ ArgStack k' t'.proc.pgdir t'.proc.sz t'.esp [[97], [98, 99]] ptrs := by
  have hroom : stackBytes [[97], [98, 99]] < newSize tinyProgram := by
    rw [newSize_tinyProgram]
    decide
  have hfits : stackBytes [[97], [98, 99]] ≤ pgSize := by decide
  obtain ⟨k', t', hstart⟩ := exec_tinyProgram (by decide) hfits [47, 97]
  obtain ⟨k₁, t₁, r, hexec, hr, -⟩ := exec_argv owned_caller (by decide) hroom [47, 97]
  cases hstart.symm.trans hexec
  rcases hr with ⟨-, hsz, ptrs, hargs⟩ | ⟨hr, -⟩
  · exact ⟨k', t', ptrs, hstart, hsz.trans newSize_tinyProgram, hargs⟩
  · exact absurd hr (by decide)

/-- An argument list that `sys_exec` can pass: strings in the caller's memory. -/
structure Passed (k : Kmem) (t : Task) (argv : List (List UInt8)) : Prop where
  exact : Exact t.proc
  count : argv.length < maxArg
  string : ∀ s ∈ argv, ∃ a, a + s.length < t.proc.sz ∧
    loadString k t.proc.pgdir a (s.length + 1) = some s

def bigDir : Pgdir :=
  ⟨320, fun i => if i.val < 9 then some ⟨321 + i, fun j => some ⟨400 + (i * 1024 + j), ⟨true, true⟩⟩⟩
    else none⟩

def bigCaller : Task := ⟨⟨bigDir, 9216 * pgSize⟩, 0, 0, []⟩

def bigMem : Kmem := ⟨List.range' 10000 2000, [], fun p _ => if p < 8848 then 97 else 0⟩

def longArg : List UInt8 := List.replicate (33 * 2 ^ 20) 97

end Xv6.Vm
