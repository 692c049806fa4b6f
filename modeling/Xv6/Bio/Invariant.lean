import Xv6.Bio.Cache
import Xv6.Lib.Tracks

namespace Xv6.Bio
open Lib Function
set_option autoImplicit true

variable {s s' : St} {p q : Pid} {i : BufId} {x : Pc} {b : Buf}

def Pc.holdsCache : Pc → Bool
  | .find .. | .recycle .. | .take .. | .getRelease .. | .relBody _ | .relRelease => true
  | _ => false

/-- The process counts in the `refcnt` of `i` without its sleep lock. -/
def Pc.refs (i : BufId) : Pc → Bool
  | .getRelease _ _ j | .lockBuf _ _ j | .relAcquire j | .relBody j => decide (j = i)
  | _ => false

def Names (buf : BufId → Buf) (n : Nat) (i : BufId) : Prop :=
  (buf i).dev = rootDev ∧ (buf i).blockno = n

/-- What a process knows at each step. -/
def At (lru : List BufId) (buf : BufId → Buf) (left : Nat → Block) (p : Pid) : Pc → Prop
  | .getAcquire dev _ => dev = rootDev
  | .find dev n k => dev = rootDev ∧ ∀ j i, j < k → lru[j]? = some i → ¬Names buf n i
  | .recycle dev n _ => dev = rootDev ∧ ∀ i, ¬Names buf n i
  | .take dev n i => dev = rootDev ∧ (∀ j, ¬Names buf n j) ∧
      (buf i).refcnt = 0 ∧ (buf i).dirty = false
  | .getRelease dev n i | .lockBuf dev n i => dev = rootDev ∧ Names buf n i
  | .fill dev n i => dev = rootDev ∧ Names buf n i ∧ (buf i).holder = some p ∧
      ((buf i).valid = true → (buf i).data = left n)
  | .writeOut i => (buf i).holder = some p ∧ (buf i).dirty = true
  | .logWrite i => (buf i).holder = some p
  | _ => True

/-- A buffer against the disk and the data its last holder left. -/
structure Buf.Ok (disk left : Nat → Block) (touched : Bool) (b : Buf) : Prop where
  valid : b.valid = true → b.dev = rootDev
  dirty : b.dirty = true → b.valid = true
  clean : b.valid = true → b.dirty = false → touched = false → b.data = disk b.blockno
  touched : touched = true → b.holder ≠ none
  quiet : b.valid = true → b.holder = none → b.data = left b.blockno

/-- The cached data, the disk and the data left agree. -/
structure Coherent (s : St) : Prop where
  ok : ∀ i, (s.buf i).Ok (s.disk rootDev) s.left (s.touched i)
  unique : ∀ n i j, Names s.buf n i → Names s.buf n j → i = j
  uncached : ∀ n, (∀ i, Names s.buf n i → (s.buf i).valid = false) →
    s.disk rootDev n = s.left n
  pinned : ∀ n ∈ s.unwritten, ∃ i, Names s.buf n i ∧ (s.buf i).dirty = true

/-- `refcnt` counts the holder and the processes on their way to or from it. -/
def Counted (buf : BufId → Buf) (pc : Pid → Pc) : Prop :=
  ∀ i, ∃ n, Counts n (Pc.refs i) pc ∧ (buf i).refcnt = n + (buf i).holder.isSome.toNat

structure Inv (s : St) : Prop where
  lock : Tracks s.lock Pc.holdsCache s.pc
  lru : ∀ i, i ∈ s.lru
  counted : Counted s.buf s.pc
  at_ : ∀ p, At s.lru s.buf s.left p (s.pc p)
  held : ∀ i p, (s.buf i).holder = some p →
    (∃ dev n, s.pc p = .fill dev n i) ∨ (s.buf i).valid = true
  coherent : Coherent s

theorem inv_boot (disk : Nat → Nat → Block) : Inv (boot disk) where
  lock := fun p => by simp [boot, Pc.holdsCache]
  lru := fun i => by simp [boot]
  counted := fun i => ⟨0, counts_zero fun _ => rfl, rfl⟩
  at_ := fun _ => trivial
  held := nofun
  coherent := by
    constructor
    · intro i
      constructor <;> exact nofun
    · rintro n i j ⟨hd, -⟩
      cases hd
    · exact fun _ _ => rfl
    · exact nofun

/-- All of a buffer but its reference count. -/
def Buf.core (b : Buf) : Buf := { b with refcnt := 0 }

theorem Buf.core_eq {a b : Buf} (h : a.core = b.core) :
    a.valid = b.valid ∧ a.dirty = b.dirty ∧ a.dev = b.dev ∧ a.blockno = b.blockno ∧
      a.holder = b.holder ∧ a.data = b.data := by
  simp only [core, Buf.mk.injEq] at h
  obtain ⟨h₁, h₂, h₃, h₄, h₅, -, h₆⟩ := h
  exact ⟨h₁, h₂, h₃, h₄, h₅, h₆⟩

theorem Names.congr (h : Names buf n i) (hd : (buf' i).dev = (buf i).dev)
    (hn : (buf' i).blockno = (buf i).blockno) : Names buf' n i :=
  ⟨hd.trans h.1, hn.trans h.2⟩

theorem At.transfer (h : At lru buf left q x)
    (hcache : x.holdsCache = true → lru' = lru ∧
      (∀ j, (buf' j).dev = (buf j).dev ∧ (buf' j).blockno = (buf j).blockno) ∧
      ∀ j, (buf j).refcnt = 0 → (buf' j).refcnt = 0 ∧ (buf' j).dirty = (buf j).dirty)
    (hrefs : ∀ j, x.refs j = true →
      (buf' j).dev = (buf j).dev ∧ (buf' j).blockno = (buf j).blockno)
    (hheld : ∀ j, (buf j).holder = some q →
      (buf' j).core = (buf j).core ∧ left' (buf j).blockno = left (buf j).blockno) :
    At lru' buf' left' q x := by
  cases x with
  | find dev n k =>
    obtain ⟨rfl, hid, -⟩ := hcache rfl
    refine ⟨h.1, ?_⟩
    intro j i hj hi hn
    exact h.2 j i hj hi (hn.congr (hid i).1.symm (hid i).2.symm)
  | recycle dev n k =>
    obtain ⟨-, hid, -⟩ := hcache rfl
    refine ⟨h.1, ?_⟩
    intro i hn
    exact h.2 i (hn.congr (hid i).1.symm (hid i).2.symm)
  | take dev n i =>
    obtain ⟨-, hid, hr⟩ := hcache rfl
    obtain ⟨hd, hn, hz, hc⟩ := h
    refine ⟨hd, ?_, (hr i hz).1, (hr i hz).2.trans hc⟩
    intro j hj
    exact hn j (hj.congr (hid j).1.symm (hid j).2.symm)
  | getRelease dev n i | lockBuf dev n i =>
    have hid := hrefs i (decide_eq_true rfl)
    exact ⟨h.1, h.2.congr hid.1 hid.2⟩
  | fill dev n i =>
    obtain ⟨hd, hn, hh, hv⟩ := h
    obtain ⟨hc, hl⟩ := hheld i hh
    obtain ⟨h₁, -, h₃, h₄, h₅, h₆⟩ := Buf.core_eq hc
    refine ⟨hd, hn.congr h₃ h₄, h₅.trans hh, ?_⟩
    intro hv'
    rw [← hn.2, hl, hn.2, h₆]
    exact hv (h₁.symm.trans hv')
  | writeOut i =>
    obtain ⟨hc, -⟩ := hheld i h.1
    obtain ⟨-, h₂, -, -, h₅, -⟩ := Buf.core_eq hc
    exact ⟨h₅.trans h.1, h₂.trans h.2⟩
  | logWrite i =>
    obtain ⟨hc, -⟩ := hheld i h
    obtain ⟨-, -, -, -, h₅, -⟩ := Buf.core_eq hc
    exact h₅.trans h
  | getAcquire dev n => exact h
  | idle | relAcquire | relBody | relRelease => trivial

theorem Counted.pos (h : Counted buf pc) (hp : (pc p).refs i = true) : 0 < (buf i).refcnt := by
  obtain ⟨n, hn, hr⟩ := h i
  have hpos := hn.pos hp
  omega

theorem Counted.pos_of_holder (h : Counted buf pc) (hp : (buf i).holder = some p) :
    0 < (buf i).refcnt := by
  obtain ⟨n, -, hr⟩ := h i
  rw [hp] at hr
  simp only [Option.isSome_some, Bool.toNat_true] at hr
  omega

theorem Counted.holder_none (h : Counted buf pc) (hz : (buf i).refcnt = 0) :
    (buf i).holder = none := by
  cases hh : (buf i).holder with
  | none => rfl
  | some p =>
    have hpos := h.pos_of_holder hh
    omega

theorem Counted.update (h : Counted s.buf s.pc)
    (hj : ∀ j, j ≠ i → x.refs j = (s.pc p).refs j)
    (hi : b.refcnt + ((s.pc p).refs i).toNat + (s.buf i).holder.isSome.toNat =
      (s.buf i).refcnt + (x.refs i).toNat + b.holder.isSome.toNat) :
    Counted (update s.buf i b) (update s.pc p x) := by
  intro j
  obtain ⟨n, hn, hr⟩ := h j
  obtain ⟨m, hm, he⟩ := hn.update p x
  refine ⟨m, hm, ?_⟩
  by_cases hji : j = i
  · subst hji
    rw [update_self]
    omega
  · rw [update_of_ne hji, hr]
    rw [hj j hji] at he
    omega

theorem Counted.goto (h : Counted s.buf s.pc) (hj : ∀ j, x.refs j = (s.pc p).refs j) :
    Counted s.buf (Function.update s.pc p x) := by
  intro j
  obtain ⟨n, hn, hr⟩ := h j
  exact ⟨n, hn.keep rfl (hj j), hr⟩

theorem Inv.at_update (h : Inv s) (hx : At lru' buf' left' p x)
    (hcache : (s.pc p).holdsCache = true ∨ lru' = s.lru ∧
      (∀ j, (buf' j).dev = (s.buf j).dev ∧ (buf' j).blockno = (s.buf j).blockno) ∧
      ∀ j, (s.buf j).refcnt = 0 → (buf' j).refcnt = 0 ∧ (buf' j).dirty = (s.buf j).dirty)
    (hrefs : ∀ j, 0 < (s.buf j).refcnt →
      (buf' j).dev = (s.buf j).dev ∧ (buf' j).blockno = (s.buf j).blockno)
    (hheld : ∀ j q, q ≠ p → (s.buf j).holder = some q →
      (buf' j).core = (s.buf j).core ∧ left' (s.buf j).blockno = s.left (s.buf j).blockno)
    (q : Pid) : At lru' buf' left' q (update s.pc p x q) := by
  by_cases hq : q = p
  · subst hq
    rwa [update_self]
  · rw [update_of_ne hq]
    apply (h.at_ q).transfer
    · intro hc
      rcases hcache with hp | hsame
      · exact absurd (h.lock.unique hc hp) hq
      · exact hsame
    · intro j hj
      exact hrefs j (h.counted.pos hj)
    · intro j hj
      exact hheld j q hq hj

theorem Inv.held_update (h : Inv s) (hq : (s.buf j).holder = some q)
    (hf : ∀ dev n, s.pc p = .fill dev n j → (s.buf j).valid = true) :
    (∃ dev n, update s.pc p x q = .fill dev n j) ∨ (s.buf j).valid = true := by
  rcases h.held j q hq with ⟨dev, n, hfill⟩ | hv
  · by_cases he : q = p
    · subst he
      exact .inr (hf dev n hfill)
    · exact .inl ⟨dev, n, (update_of_ne he _ _).trans hfill⟩
  · exact .inr hv

theorem Inv.goto (h : Inv s) (hp : s.pc p = y) (hl : Tracks l Pc.holdsCache (update s.pc p x))
    (hr : ∀ j, x.refs j = y.refs j) (hx : At s.lru s.buf s.left p x)
    (hf : ∀ dev n j, y = .fill dev n j → (s.buf j).valid = true) :
    Inv { s.goto p x with lock := l } where
  lock := hl
  lru := h.lru
  counted := h.counted.goto (by rwa [hp])
  at_ := h.at_update hx (.inr ⟨rfl, fun _ => ⟨rfl, rfl⟩, fun _ hz => ⟨hz, rfl⟩⟩)
    (fun _ _ => ⟨rfl, rfl⟩) (fun _ _ _ _ => ⟨rfl, rfl⟩)
  held := by
    intro j q hq
    exact h.held_update hq fun dev n hfill => hf dev n j (hp.symm.trans hfill)
  coherent := by
    obtain ⟨h₁, h₂, h₃, h₄⟩ := h.coherent
    exact ⟨h₁, h₂, h₃, h₄⟩

theorem names_update (hd : b.dev = (s.buf i).dev) (hn : b.blockno = (s.buf i).blockno) :
    Names (update s.buf i b) n j ↔ Names s.buf n j := by
  simp only [Names, proj_update Buf.dev s.buf hd, proj_update Buf.blockno s.buf hn]

theorem Coherent.setBuf (h : Coherent s) (hs : s'.buf = update s.buf i b)
    (hd : b.dev = (s.buf i).dev) (hn : b.blockno = (s.buf i).blockno)
    (hb : b.Ok (s'.disk rootDev) s'.left (s'.touched i))
    (ho : ∀ j, j ≠ i → (s.buf j).Ok (s'.disk rootDev) s'.left (s'.touched j))
    (hu : ∀ n, (∀ j, Names s.buf n j → (update s.buf i b j).valid = false) →
      s'.disk rootDev n = s'.left n)
    (hp : ∀ n ∈ s'.unwritten, ∃ j, Names s.buf n j ∧
      (update s.buf i b j).dirty = true) : Coherent s' := by
  constructor
  · rw [hs]
    exact (forall_update_iff s.buf (fun j b => b.Ok _ _ (s'.touched j))).2 ⟨hb, ho⟩
  · simp only [hs, names_update hd hn]
    exact h.unique
  · simp only [hs, names_update hd hn]
    exact hu
  · simp only [hs, names_update hd hn]
    exact hp

theorem update_core (buf : BufId → Buf) (i : BufId) (hb : b.core = (buf i).core) (j : BufId) :
    (update buf i b j).core = (buf j).core :=
  proj_update Buf.core buf hb j

theorem Inv.setRefcnt (h : Inv s) (hp : s.pc p = y) (hy : y.holdsCache = true)
    (hx : x.holdsCache = true) (hf : ∀ dev n j, y ≠ .fill dev n j)
    (hl : ∀ j, j ∈ lru') (hj : ∀ j, j ≠ i → x.refs j = y.refs j)
    (hi : r + (y.refs i).toNat = (s.buf i).refcnt + (x.refs i).toNat)
    (hat : ∀ buf', (∀ j, (buf' j).core = (s.buf j).core) → At lru' buf' s.left p x) :
    Inv { (s.setBuf i { s.buf i with refcnt := r }).goto p x with lru := lru' } := by
  subst hp
  have hcore := update_core s.buf i (b := { s.buf i with refcnt := r }) rfl
  have hid (j : BufId) := Buf.core_eq (hcore j)
  exact {
    lock := h.lock.keep rfl (hx.trans hy.symm)
    lru := hl
    counted := by
      apply h.counted.update hj
      simp only
      omega
    at_ := by
      apply h.at_update (hat _ hcore) (.inl hy)
      · intro j _
        exact ⟨(hid j).2.2.1, (hid j).2.2.2.1⟩
      · intro j q _ _
        exact ⟨hcore j, rfl⟩
    held := by
      intro j q hq
      have hq' : (s.buf j).holder = some q := (hid j).2.2.2.2.1.symm.trans hq
      exact (h.held_update hq' fun dev n hfill => absurd hfill (hf dev n j)).imp_right
        (hid j).1.trans
    coherent := by
      have hok := h.coherent.ok i
      refine h.coherent.setBuf (i := i) (b := { s.buf i with refcnt := r }) rfl rfl rfl
        ⟨hok.1, hok.2, hok.3, hok.4, hok.5⟩ (fun j _ => h.coherent.ok j) ?_ ?_
      · intro m hm
        apply h.coherent.uncached m
        intro j hj
        exact (hid j).1.symm.trans (hm j hj)
      · intro m hm
        obtain ⟨j, hj, hd⟩ := h.coherent.pinned m hm
        exact ⟨j, hj, (hid j).2.1.trans hd⟩ }

theorem Coherent.take (h : Coherent s) (hn : ∀ j, ¬Names s.buf n j)
    (hd : (s.buf i).dirty = false) (hh : (s.buf i).holder = none) :
    Coherent (s.setBuf i { s.buf i with
      dev := rootDev, blockno := n, valid := false, dirty := false, refcnt := 1 }) := by
  have ht : s.touched i = false := by
    cases ht : s.touched i with
    | false => rfl
    | true => exact absurd hh ((h.ok i).touched ht)
  have hne (j : BufId) (hj : j ≠ i) (b : Buf) : update s.buf i b j = s.buf j :=
    update_of_ne hj _ _
  constructor
  · apply (forall_update_iff s.buf (fun j b => b.Ok _ _ (s.touched j))).2
    refine ⟨⟨nofun, nofun, nofun, ?_, nofun⟩, fun j _ => h.ok j⟩
    intro ht'
    cases ht.symm.trans ht'
  · intro m j k hj hk
    simp only [St.setBuf, Names] at hj hk
    by_cases hji : j = i
    · by_cases hki : k = i
      · rw [hji, hki]
      · subst hji
        rw [update_self] at hj
        rw [hne k hki, ← hj.2] at hk
        exact absurd hk (hn k)
    · rw [hne j hji] at hj
      by_cases hki : k = i
      · subst hki
        rw [update_self] at hk
        rw [← hk.2] at hj
        exact absurd hj (hn j)
      · rw [hne k hki] at hk
        exact h.unique m j k hj hk
  · intro m hm
    by_cases hi : Names s.buf m i ∧ (s.buf i).valid = true
    · obtain ⟨him, hv⟩ := hi
      have hq := (h.ok i).quiet hv hh
      rw [(h.ok i).clean hv hd ht, him.2] at hq
      exact hq
    · apply h.uncached
      intro j hj
      by_cases hji : j = i
      · subst hji
        exact Bool.eq_false_of_not_eq_true fun hv => hi ⟨hj, hv⟩
      · have hv := hm j
        simp only [St.setBuf, Names, hne j hji] at hv
        exact hv hj
  · intro m hm
    obtain ⟨j, hj, hdj⟩ := h.pinned m hm
    have hji : j ≠ i := by
      rintro rfl
      cases hd.symm.trans hdj
    refine ⟨j, ?_⟩
    simp only [St.setBuf, Names, hne j hji]
    exact ⟨hj, hdj⟩

theorem Inv.take (h : Inv s) (hp : s.pc p = .take dev n i) :
    Inv ((s.setBuf i { s.buf i with
      dev := dev, blockno := n, valid := false, dirty := false, refcnt := 1 }).goto p
        (.getRelease dev n i)) := by
  have hat := h.at_ p
  rw [hp] at hat
  obtain ⟨rfl, hn, hz, hd⟩ := hat
  have hh := h.counted.holder_none hz
  have hne (j : BufId) (hj : 0 < (s.buf j).refcnt) (b : Buf) :
      update s.buf i b j = s.buf j := by
    apply update_of_ne
    rintro rfl
    omega
  exact {
    lock := h.lock.keep hp rfl
    lru := h.lru
    counted := by
      apply h.counted.update
      · intro j hj
        rw [hp]
        simp only [Pc.refs, decide_eq_false_iff_not]
        exact Ne.symm hj
      · rw [hp, hz, hh]
        simp [Pc.refs]
    at_ := by
      apply h.at_update _ (.inl (by rw [hp]; rfl))
      · intro j hj
        simp only [St.goto, St.setBuf, hne j hj, and_self]
      · intro j q _ hq
        simp only [St.goto, St.setBuf, hne j (h.counted.pos_of_holder hq), and_self]
      · simp only [At, Names, St.goto, St.setBuf, update_self, and_self]
    held := by
      intro j q hq
      have hji : j ≠ i := by
        rintro rfl
        simp only [St.goto, St.setBuf, update_self, hh] at hq
        cases hq
      simp only [St.goto, St.setBuf, update_of_ne hji] at hq ⊢
      exact h.held_update hq fun dev m hfill => by cases hp.symm.trans hfill
    coherent := by
      obtain ⟨h₁, h₂, h₃, h₄⟩ := h.coherent.take hn hd hh
      exact ⟨h₁, h₂, h₃, h₄⟩ }

theorem Inv.byHolder (h : Inv s) (hp : s.pc p = y) (hh : (s.buf i).holder = some p)
    (hd : b.dev = (s.buf i).dev) (hn : b.blockno = (s.buf i).blockno)
    (hr : b.refcnt = (s.buf i).refcnt) (hb : b.holder = some p) (hv : b.valid = true)
    (hl : s'.lock = s.lock) (hs : s'.buf = update s.buf i b) (hlru : s'.lru = s.lru)
    (hleft : s'.left = s.left) (hpc : s'.pc = update s.pc p x)
    (hx : x.holdsCache = y.holdsCache) (hrefs : ∀ j, x.refs j = y.refs j)
    (hf : ∀ dev n j, y = .fill dev n j → j = i)
    (hat : At s.lru (update s.buf i b) s.left p x) (hc : Coherent s') : Inv s' := by
  subst hp
  have hdev (j : BufId) := proj_update Buf.dev s.buf hd j
  have hblk (j : BufId) := proj_update Buf.blockno s.buf hn j
  have hpos := h.counted.pos_of_holder hh
  constructor
  · rw [hl, hpc]
    exact h.lock.keep rfl hx
  · rw [hlru]
    exact h.lru
  · rw [hs, hpc]
    apply h.counted.update fun j _ => hrefs j
    rw [hrefs i, hr, hb, hh]
  · rw [hlru, hs, hleft, hpc]
    apply h.at_update hat
    · refine .inr ⟨rfl, fun j => ⟨hdev j, hblk j⟩, ?_⟩
      intro j hz
      have hji : j ≠ i := by
        rintro rfl
        omega
      simp only [update_of_ne hji, hz, and_self]
    · exact fun j _ => ⟨hdev j, hblk j⟩
    · intro j q hq hj
      have hji : j ≠ i := by
        rintro rfl
        exact hq (Option.some.inj (hj.symm.trans hh))
      simp only [update_of_ne hji, and_self]
  · intro j q hq
    rw [hs] at hq ⊢
    rw [hpc]
    by_cases hji : j = i
    · subst hji
      rw [update_self]
      exact .inr hv
    · rw [update_of_ne hji] at hq ⊢
      exact h.held_update hq fun dev n hfill => absurd (hf dev n j hfill) hji
  · exact hc

theorem Inv.valid_of_held (h : Inv s) (hh : (s.buf i).holder = some p) (hp : s.pc p = y)
    (hy : ∀ dev n, y ≠ .fill dev n i) : (s.buf i).valid = true := by
  rcases h.held i p hh with ⟨dev, n, hfill⟩ | hv
  · exact absurd (hp.symm.trans hfill) (hy dev n)
  · exact hv

theorem Inv.uncached_of_le (h : Inv s)
    (hm : ∀ j, Names s.buf m j → (update s.buf i b j).valid = false)
    (hv : (s.buf i).valid = true → b.valid = true) :
    s.disk rootDev m = s.left m := by
  apply h.coherent.uncached
  intro j hj
  have hj' := hm j hj
  by_cases hji : j = i
  · subst hji
    rw [update_self] at hj'
    cases hb : (s.buf j).valid with
    | false => rfl
    | true => cases (hv hb).symm.trans hj'
  · rwa [update_of_ne hji] at hj'

theorem Inv.pinned_of_le (h : Inv s) (hd : (s.buf i).dirty = true → b.dirty = true)
    (hm : m ∈ s.unwritten) :
    ∃ j, Names s.buf m j ∧ (update s.buf i b j).dirty = true := by
  obtain ⟨j, hj, hdj⟩ := h.coherent.pinned m hm
  refine ⟨j, hj, ?_⟩
  by_cases hji : j = i
  · subst hji
    rw [update_self]
    exact hd hdj
  · rwa [update_of_ne hji]

theorem Inv.modify (h : Inv s) (hp : s.pc p = .idle) (hh : (s.buf i).holder = some p) :
    Inv { s.setBuf i { s.buf i with data := d } with
      touched := update s.touched i true } := by
  have hv := h.valid_of_held hh hp nofun
  refine h.byHolder (b := { s.buf i with data := d }) hp hh rfl rfl rfl hh hv
    rfl rfl rfl rfl ?_ rfl (fun _ => rfl) nofun trivial ?_
  · rw [← hp]
    exact (update_eq_self p s.pc).symm
  · have hok := h.coherent.ok i
    refine h.coherent.setBuf (i := i) (b := { s.buf i with data := d }) rfl rfl rfl ?_ ?_
      (fun m hm => h.uncached_of_le hm id) (fun m hm => h.pinned_of_le id hm)
    · refine ⟨hok.valid, hok.dirty, ?_, ?_, ?_⟩
      · intro _ _ ht
        simp at ht
      · intro _
        simp [hh]
      · intro _ hn
        simp [hh] at hn
    · intro j hj
      simp only [update_of_ne hj]
      exact h.coherent.ok j

theorem Inv.fill (h : Inv s) (hp : s.pc p = .fill dev n i) (hv : (s.buf i).valid = false) :
    Inv ((s.iderw i).goto p .idle) := by
  have hok := h.coherent.ok i
  have hat := h.at_ p
  rw [hp] at hat
  obtain ⟨rfl, hn, hh, -⟩ := hat
  have hd : (s.buf i).dirty = false := by
    cases hd : (s.buf i).dirty with
    | false => rfl
    | true => cases hv.symm.trans (hok.dirty hd)
  have hs : s.iderw i = s.setBuf i
      { s.buf i with valid := true, data := s.disk (s.buf i).dev (s.buf i).blockno } := by
    simp only [St.iderw, hd, Bool.false_eq_true, ↓reduceIte]
  rw [hs]
  refine h.byHolder (x := .idle) (i := i)
    (b := { s.buf i with valid := true, data := s.disk (s.buf i).dev (s.buf i).blockno })
    hp hh rfl rfl rfl hh rfl rfl rfl rfl rfl rfl rfl (fun _ => rfl) ?_ trivial ?_
  · rintro dev m j ⟨⟩
    rfl
  · refine h.coherent.setBuf (i := i)
      (b := { s.buf i with valid := true, data := s.disk (s.buf i).dev (s.buf i).blockno })
      rfl rfl rfl ?_ (fun j _ => h.coherent.ok j) (fun m hm => h.uncached_of_le hm fun _ => rfl)
      (fun m hm => h.pinned_of_le id hm)
    refine ⟨fun _ => hn.1, fun _ => rfl, ?_, hok.touched, ?_⟩
    · intro _ _ _
      simp only [hn.1]
      rfl
    · intro _ hnone
      cases hh.symm.trans hnone

theorem Inv.logWrite (h : Inv s) (hp : s.pc p = .logWrite i) :
    Inv { (s.setBuf i { s.buf i with dirty := true }).goto p .idle with
      touched := update s.touched i false
      unwritten := insert (s.buf i).blockno s.unwritten } := by
  have hok := h.coherent.ok i
  have hh := h.at_ p
  rw [hp] at hh
  have hv := h.valid_of_held hh hp nofun
  refine h.byHolder (x := .idle) (i := i) (b := { s.buf i with dirty := true })
    hp hh rfl rfl rfl hh hv rfl rfl rfl rfl rfl rfl (fun _ => rfl) nofun trivial ?_
  · refine h.coherent.setBuf (i := i) (b := { s.buf i with dirty := true }) rfl rfl rfl ?_ ?_
      (fun m hm => h.uncached_of_le hm id) ?_
    · refine ⟨hok.valid, fun _ => hv, nofun, ?_, hok.quiet⟩
      intro ht
      simp at ht
    · intro j hj
      simp only [update_of_ne hj]
      exact h.coherent.ok j
    · intro m hm
      rcases Finset.mem_insert.1 hm with rfl | hm
      · refine ⟨i, ⟨hok.valid hv, rfl⟩, ?_⟩
        rw [update_self]
      · exact h.pinned_of_le (fun _ => rfl) hm

theorem Inv.bwrite (h : Inv s) (hp : s.pc p = .idle) (hh : (s.buf i).holder = some p) :
    Inv ((s.setBuf i { s.buf i with dirty := true }).goto p (.writeOut i)) := by
  have hok := h.coherent.ok i
  have hv := h.valid_of_held hh hp nofun
  refine h.byHolder (x := .writeOut i) (i := i) (b := { s.buf i with dirty := true })
    hp hh rfl rfl rfl hh hv rfl rfl rfl rfl rfl rfl (fun _ => rfl) nofun ?_ ?_
  · simp only [At, update_self]
    exact ⟨hh, trivial⟩
  · exact h.coherent.setBuf (i := i) (b := { s.buf i with dirty := true }) rfl rfl rfl
      ⟨hok.valid, fun _ => hv, nofun, hok.touched, hok.quiet⟩ (fun j _ => h.coherent.ok j)
      (fun m hm => h.uncached_of_le hm id) (fun m hm => h.pinned_of_le (fun _ => rfl) hm)

theorem Inv.writeOut (h : Inv s) (hp : s.pc p = .writeOut i) :
    Inv { (s.iderw i).goto p .idle with
      touched := update s.touched i false
      unwritten := s.unwritten.erase (s.buf i).blockno } := by
  have hok := h.coherent.ok i
  have hat := h.at_ p
  rw [hp] at hat
  obtain ⟨hh, hd⟩ := hat
  have hv := hok.dirty hd
  have hdev := hok.valid hv
  have hs : s.iderw i = { s.setBuf i { s.buf i with valid := true, dirty := false } with
      disk := update s.disk rootDev
        (update (s.disk rootDev) (s.buf i).blockno (s.buf i).data) } := by
    simp only [St.iderw, hd, ↓reduceIte, hdev]
  rw [hs]
  refine h.byHolder (x := .idle) (i := i) (b := { s.buf i with valid := true, dirty := false })
    hp hh rfl rfl rfl hh rfl rfl rfl rfl rfl rfl rfl (fun _ => rfl) nofun trivial ?_
  · refine h.coherent.setBuf (i := i) (b := { s.buf i with valid := true, dirty := false })
      rfl rfl rfl ?_ ?_ ?_ ?_ <;> simp only [St.goto, update_self]
    · refine ⟨fun _ => hdev, nofun, fun _ _ _ => ?_, nofun, fun _ hn => hok.quiet hv hn⟩
      rw [update_self]
    · intro j hj
      rw [update_of_ne hj]
      have hokj := h.coherent.ok j
      refine ⟨hokj.valid, hokj.dirty, fun hvj hdj htj => ?_, hokj.touched, hokj.quiet⟩
      rw [update_of_ne]
      · exact hokj.clean hvj hdj htj
      · intro he
        exact hj (h.coherent.unique _ j i ⟨hokj.valid hvj, rfl⟩ ⟨hdev, he.symm⟩)
    · intro m hm
      have hne : m ≠ (s.buf i).blockno := by
        rintro rfl
        have hi := hm i ⟨hdev, rfl⟩
        rw [update_self] at hi
        cases hi
      rw [update_of_ne hne]
      exact h.uncached_of_le hm fun _ => rfl
    · intro m hm
      obtain ⟨hne, hm⟩ := Finset.mem_erase.1 hm
      obtain ⟨j, hj, hdj⟩ := h.coherent.pinned m hm
      refine ⟨j, hj, ?_⟩
      rw [update_of_ne]
      · exact hdj
      · rintro rfl
        exact hne hj.2.symm

theorem Inv.lockBuf (h : Inv s) (hp : s.pc p = .lockBuf dev n i)
    (hh : (s.buf i).holder = none) :
    Inv ((s.setBuf i { s.buf i with holder := some p }).goto p (.fill dev n i)) := by
  have hok := h.coherent.ok i
  have hat := h.at_ p
  rw [hp] at hat
  obtain ⟨hd, hn⟩ := hat
  have hdev (j : BufId) :=
    proj_update (x := { s.buf i with holder := some p }) Buf.dev s.buf rfl j
  have hblk (j : BufId) :=
    proj_update (x := { s.buf i with holder := some p }) Buf.blockno s.buf rfl j
  have href (j : BufId) :=
    proj_update (x := { s.buf i with holder := some p }) Buf.refcnt s.buf rfl j
  have hdir (j : BufId) :=
    proj_update (x := { s.buf i with holder := some p }) Buf.dirty s.buf rfl j
  constructor
  · exact h.lock.keep hp rfl
  · exact h.lru
  · apply h.counted.update
    · intro j hj
      rw [hp]
      simp only [Pc.refs, Bool.false_eq, decide_eq_false_iff_not]
      exact Ne.symm hj
    · rw [hp, hh]
      simp [Pc.refs]
  · apply h.at_update
    · simp only [At, Names, St.goto, St.setBuf, update_self]
      exact ⟨hd, hn, trivial, fun hv => hn.2 ▸ hok.quiet hv hh⟩
    · exact .inr ⟨rfl, fun j => ⟨hdev j, hblk j⟩, fun j hz => ⟨(href j).trans hz, hdir j⟩⟩
    · exact fun j _ => ⟨hdev j, hblk j⟩
    · intro j q _ hj
      have hji : j ≠ i := by
        rintro rfl
        cases hh.symm.trans hj
      simp only [St.goto, St.setBuf, update_of_ne hji, and_self]
  · intro j q hq
    by_cases hji : j = i
    · subst hji
      simp only [St.goto, St.setBuf, update_self, Option.some.injEq] at hq
      subst hq
      exact .inl ⟨dev, n, update_self ..⟩
    · simp only [St.goto, St.setBuf, update_of_ne hji] at hq ⊢
      exact h.held_update hq fun dev m hfill => by cases hp.symm.trans hfill
  · exact h.coherent.setBuf (i := i) (b := { s.buf i with holder := some p }) rfl rfl rfl
      ⟨hok.valid, hok.dirty, hok.clean, nofun, nofun⟩ (fun j _ => h.coherent.ok j)
      (fun m hm => h.uncached_of_le hm id) (fun m hm => h.pinned_of_le id hm)

/-- Releasing a buffer settles what its block holds for the next reader. -/
theorem Inv.brelse (h : Inv s) (hp : s.pc p = .idle) (hh : (s.buf i).holder = some p)
    (ht : s.touched i = false) :
    Inv { (s.setBuf i { s.buf i with holder := none }).goto p (.relAcquire i) with
      left := update s.left (s.buf i).blockno (s.buf i).data } := by
  have hok := h.coherent.ok i
  have hv := h.valid_of_held hh hp nofun
  have hi : Names s.buf (s.buf i).blockno i := ⟨hok.valid hv, rfl⟩
  have hleft (j : BufId) (hj : j ≠ i) (hd : (s.buf j).dev = rootDev) :
      update s.left (s.buf i).blockno (s.buf i).data (s.buf j).blockno =
        s.left (s.buf j).blockno := by
    apply update_of_ne
    intro he
    exact hj (h.coherent.unique _ j i ⟨hd, he⟩ hi)
  have hdev (j : BufId) :=
    proj_update (x := { s.buf i with holder := none }) Buf.dev s.buf rfl j
  have hblk (j : BufId) :=
    proj_update (x := { s.buf i with holder := none }) Buf.blockno s.buf rfl j
  have href (j : BufId) :=
    proj_update (x := { s.buf i with holder := none }) Buf.refcnt s.buf rfl j
  have hdir (j : BufId) :=
    proj_update (x := { s.buf i with holder := none }) Buf.dirty s.buf rfl j
  constructor
  · exact h.lock.keep hp rfl
  · exact h.lru
  · apply h.counted.update
    · intro j hj
      rw [hp]
      simp only [Pc.refs, decide_eq_false_iff_not]
      exact Ne.symm hj
    · rw [hp, hh]
      simp [Pc.refs]
  · apply h.at_update
    · trivial
    · exact .inr ⟨rfl, fun j => ⟨hdev j, hblk j⟩, fun j hz => ⟨(href j).trans hz, hdir j⟩⟩
    · exact fun j _ => ⟨hdev j, hblk j⟩
    · intro j q hq hj
      have hji : j ≠ i := by
        rintro rfl
        exact hq (Option.some.inj (hj.symm.trans hh))
      have hdj : (s.buf j).dev = rootDev := by
        rcases h.held j q hj with ⟨dev, n, hfill⟩ | hv
        · have hat := h.at_ q
          rw [hfill] at hat
          exact hat.2.1.1
        · exact (h.coherent.ok j).valid hv
      refine ⟨?_, hleft j hji hdj⟩
      simp only [St.goto, St.setBuf, update_of_ne hji]
  · intro j q hq
    by_cases hji : j = i
    · subst hji
      simp only [St.goto, St.setBuf, update_self] at hq
      cases hq
    · simp only [St.goto, St.setBuf, update_of_ne hji] at hq ⊢
      exact h.held_update hq fun dev m hfill => by cases hp.symm.trans hfill
  · refine h.coherent.setBuf (i := i) (b := { s.buf i with holder := none }) rfl rfl rfl
      ?_ ?_ ?_ (fun m hm => h.pinned_of_le id hm)
    · refine ⟨hok.valid, hok.dirty, hok.clean, ?_, ?_⟩
      · intro ht'
        cases ht.symm.trans ht'
      · intro _ _
        simp only [update_self]
    · intro j hj
      have hokj := h.coherent.ok j
      refine ⟨hokj.valid, hokj.dirty, hokj.clean, hokj.touched, ?_⟩
      intro hvj hnj
      simp only [hleft j hj (hokj.valid hvj)]
      exact hokj.quiet hvj hnj
    · intro m hm
      have hne : m ≠ (s.buf i).blockno := by
        rintro rfl
        have hi' := hm i hi
        rw [update_self] at hi'
        cases hv.symm.trans hi'
      simp only [update_of_ne hne]
      exact h.uncached_of_le hm id

theorem Inv.calls (h : Inv s) (hp : s.pc p = .idle) (hs : Calls s p c s') : Inv s' := by
  cases hs with
  | bread => exact h.goto hp (h.lock.keep hp rfl) (fun _ => rfl) rfl nofun
  | modify hh => exact h.modify hp hh
  | logWrite hh => exact h.goto hp (h.lock.keep hp rfl) (fun _ => rfl) hh nofun
  | bwrite hh => exact h.bwrite hp hh
  | brelse hh ht => exact h.brelse hp hh ht

theorem Inv.moves (h : Inv s) (hs : Moves s p s') : Inv s' := by
  have hat := h.at_ p
  cases hs with
  | getAcquire hp hl =>
    rw [hp] at hat
    exact h.goto hp (Tracks.take (hl ▸ h.lock) rfl) (fun _ => rfl)
      ⟨hat, fun j i hj => absurd hj (Nat.not_lt_zero j)⟩ nofun
  | @hit dev n k i hp hi hd hn =>
    rw [hp] at hat
    apply h.setRefcnt hp rfl rfl nofun h.lru
    · intro j hj
      simp only [Pc.refs, decide_eq_false_iff_not]
      exact Ne.symm hj
    · simp [Pc.refs]
    · intro buf' hb
      obtain ⟨-, -, hd', hn', -, -⟩ := Buf.core_eq (hb i)
      exact ⟨hat.1, (hd'.trans hd).trans hat.1, hn'.trans hn⟩
  | @miss dev n k i hp hi hm =>
    rw [hp] at hat
    obtain ⟨rfl, hat⟩ := hat
    refine h.goto hp (h.lock.keep hp rfl) (fun _ => rfl) ⟨rfl, ?_⟩ nofun
    intro j i' hj hi' hn
    rcases Nat.lt_succ_iff_lt_or_eq.1 hj with hj | rfl
    · exact hat j i' hj hi' hn
    · cases hi.symm.trans hi'
      exact hm hn
  | notCached hp hi =>
    rw [hp] at hat
    obtain ⟨rfl, hat⟩ := hat
    refine h.goto hp (h.lock.keep hp rfl) (fun _ => rfl) ⟨rfl, ?_⟩ nofun
    intro i hn
    obtain ⟨j, hj⟩ := List.mem_iff_getElem?.1 (h.lru i)
    obtain ⟨hlt, -⟩ := List.getElem?_eq_some_iff.1 hj
    have hle := List.getElem?_eq_none_iff.1 hi
    exact hat j i (by omega) hj hn
  | unused hp hr hd =>
    rw [hp] at hat
    exact h.goto hp (h.lock.keep hp rfl) (fun _ => rfl) ⟨hat.1, hat.2, hr, hd⟩ nofun
  | inUse hp =>
    rw [hp] at hat
    exact h.goto hp (h.lock.keep hp rfl) (fun _ => rfl) hat nofun
  | take hp => exact h.take hp
  | getRelease hp =>
    rw [hp] at hat
    exact h.goto hp (h.lock.drop hp rfl rfl) (fun _ => rfl) hat nofun
  | lockBuf hp hh => exact h.lockBuf hp hh
  | filled hp hv =>
    refine h.goto hp (h.lock.keep hp rfl) (fun _ => rfl) trivial ?_
    rintro dev n j ⟨⟩
    exact hv
  | fill hp hv => exact h.fill hp hv
  | writeOut hp => exact h.writeOut hp
  | logWrite hp => exact h.logWrite hp
  | relAcquire hp hl =>
    exact h.goto hp (Tracks.take (hl ▸ h.lock) rfl) (fun _ => rfl) trivial nofun
  | @relBody i hp =>
    have hpos : 0 < (s.buf i).refcnt := h.counted.pos (p := p) (by rw [hp]; simp [Pc.refs])
    apply h.setRefcnt hp rfl rfl nofun
    · intro j
      split
      · by_cases hji : j = i
        · rw [hji]
          exact List.mem_cons_self
        · exact List.mem_cons_of_mem _ ((List.mem_erase_of_ne hji).2 (h.lru j))
      · exact h.lru j
    · intro j hj
      simp only [Pc.refs, Bool.false_eq, decide_eq_false_iff_not]
      exact Ne.symm hj
    · simp only [Pc.refs, decide_true, Bool.toNat_true, Bool.toNat_false]
      omega
    · exact fun _ _ => trivial
  | relRelease hp => exact h.goto hp (h.lock.drop hp rfl rfl) (fun _ => rfl) trivial nofun

theorem inv_of_exec (h : Exec step (fun s e => legal s e) (boot disk) evs s) : Inv s := by
  apply h.invariant (inv_boot disk)
  intro s e s' hi hl hs
  cases e with
  | call p c =>
    obtain ⟨hp, hc⟩ := calls_of_callStep hs hl
    exact hi.calls hp hc
  | step p => exact hi.moves (moves_of_procStep hs)

end Xv6.Bio
