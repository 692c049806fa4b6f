import Xv6.Sys.Create

namespace Xv6.Sys
open Lib Fs
set_option autoImplicit true

variable {s s' : St} {f f' : Nat → Inode} {strict safe : Bool} {r : Int} {de : Dirent}
variable {ts ps : List Nat} {c cwd d dp i j k n p : Nat} {name path old new : List UInt8}

theorem walk_congr (ht : ∀ j, (f' j).type = (f j).type) (hd : ∀ j, (f' j).dents = (f j).dents)
    (i : Nat) (parent : Bool) (es : List (List UInt8)) : walk f' i parent es = walk f i parent es := by
  induction es generalizing i with
  | nil => rfl
  | cons name rest ih => simp only [walk, ht, hd, ih]

theorem Refs.setNlink {v : Int16} (h : Refs safe s ts) (hd : (s.inode i).type ≠ tDir)
    (hv : v = 0 → (s.inode i).nlink = 0 ∨ s.valid i = true ∧ i ∈ ts) :
    Refs safe (s.setNlink i v) ts := by
  rw [show s.setNlink i v = { s with inode := (s.setNlink i v).inode } from rfl]
  apply h.edit
  · intro j hj
    rwa [setNlink_type]
  · intro j hj
    rwa [setNlink_type]
  · intro j hj hl
    rw [setNlink_type] at hj
    by_cases hji : j = i
    · subst hji
      rw [setNlink_self] at hl
      rcases hv hl with h₀ | h₀
      · exact .inl ⟨hj, h₀⟩
      · exact .inr h₀
    · rw [setNlink_of_ne s v hji] at hl
      exact .inl ⟨hj, hl⟩
  · intro hs p c hc
    have hlk := h.above hs p c hc
    have hne : ent s.inode c 1 ≠ i := by
      intro he
      rw [he] at hlk
      exact hd hlk.1
    rw [ent, setNlink_dents, ← ent, Linked, setNlink_of_ne s v hne]
    exact hlk

theorem ent_one_setDirent (hk : 2 ≤ k) (hlen : k ≤ (s.inode dp).dents.length) :
    ent (s.setDirent dp k de).inode c 1 = ent s.inode c 1 :=
  ent_putEntry_one hk hlen c

theorem Refs.setDirent (h : Refs safe s ts) (hk : 2 ≤ k) (hlen : k ≤ (s.inode dp).dents.length)
    (de : Dirent) : Refs safe (s.setDirent dp k de) ts := by
  rw [show s.setDirent dp k de = { s with inode := (s.setDirent dp k de).inode } from rfl]
  apply h.edit
  · intro j hj
    rwa [setDirent_type]
  · intro j hj
    rwa [setDirent_type]
  · intro j hj hl
    rw [setDirent_type] at hj
    rw [setDirent_nlink] at hl
    exact .inl ⟨hj, hl⟩
  · intro hs p c hc
    have hlk := h.above hs p c hc
    rw [ent_one_setDirent hk hlen, Linked, setDirent_type, setDirent_nlink]
    exact hlk

theorem linkBad_ok (h : Inv strict safe s (i :: ts) (i :: ps)) (ht : (s.inode i).type ≠ 0)
    (hd : (s.inode i).type ≠ tDir) (ho : linkBad s i = .ok (s', r)) :
    Inv strict safe s' ts ps := by
  rw [linkBad] at ho
  obtain ⟨s₁, h₁, ho⟩ := bind_ok ho
  obtain ⟨hr₁, hs₁, -, hv, -⟩ := h.refs.ilock (h.refs.pos_of_mem List.mem_cons_self) h₁
  have hi₁ := h.same hs₁ hr₁
  cases ho
  rw [← hs₁.inode] at ht hd
  have hi₂ : Inv strict safe (s₁.setNlink i ((s₁.inode i).nlink - 1)) (i :: ts) ps :=
    ⟨hi₁.tree.unbump ht hd, hr₁.setNlink hd fun _ => .inr ⟨hv, List.mem_cons_self⟩⟩
  exact hi₂.iput

/-- The directory to which a call that makes `path` adds. -/
def St.adds (s : St) (cwd : Nat) (path : List UInt8) : Option Nat :=
  match s.lookup cwd path true with
  | some (dp, name) => if find (s.inode dp).dents name = none then some dp else none
  | none => none

theorem adds_eq_some (h : s.lookup cwd path true = some (dp, name))
    (hf : find (s.inode dp).dents name = none) : s.adds cwd path = some dp := by
  rw [St.adds, h]
  simp only [hf, ↓reduceIte]

theorem Inv.dirlink (h : Inv strict safe s (dp :: ts) (i :: ps)) (hn : NoOrphan s)
    (ht : (s.inode i).type ≠ 0) (hd : (s.inode i).type ≠ tDir)
    (hmay : find (s.inode dp).dents name = none → strict = true → 0 < (s.inode dp).nlink)
    (ho : Sys.dirlink s dp name i = .ok (s', r)) :
    (r < 0 ∧ Same s s' ∧ Inv strict safe s' (dp :: ts) (i :: ps)) ∨
      r = 0 ∧ Inv strict safe s' (dp :: ts) ps := by
  obtain ⟨hdir, ⟨off, j, -, rfl, rfl⟩ | ⟨hf, rfl, rfl⟩⟩ := dirlink_ok ho
  · left
    have hs := same_iget s j
    have hi := h.same hs (h.refs.iget j)
    obtain ⟨hr, hs'⟩ := hi.refs.iput_same (hn.same hs)
    exact ⟨by decide, hs.trans hs', hi.same hs' hr⟩
  · right
    have hdp := h.tree.inum dp (by rw [hdir]; decide)
    have hi16 := h.tree.inum i ht
    have hsize := h.tree.size
    obtain ⟨hn₁, hn₂, hk⟩ := (h.tree.dots dp hdir).fresh (by omega) hf
    have hlen := emptySlot_le (s.inode dp).dents
    refine ⟨rfl, ?_, h.refs.setDirent hk hlen _⟩
    apply h.tree.addEntry hdir hk hlen (entry_emptySlot _) (direntFor_inum (by omega)) ht hd
    · rw [key_direntFor]
      exact ⟨hn₁, hn₂⟩
    · intro hn
      cases hs : strict with
      | false => rfl
      | true => exact absurd (hmay hf hs) hn

theorem adds_congr (ht : ∀ j, (s'.inode j).type = (s.inode j).type)
    (hd : ∀ j, (s'.inode j).dents = (s.inode j).dents) (cwd : Nat) (path : List UInt8) :
    s'.adds cwd path = s.adds cwd path := by
  simp only [St.adds, St.lookup, walk_congr ht hd, hd]

theorem adds_dir (h : s.adds cwd path = some dp) : (s.inode dp).type = tDir := by
  rw [St.adds] at h
  split at h
  · next hl =>
    split at h
    · cases h
      exact walk_parent hl
    · cases h
  · cases h

theorem Inv.linkInto (h : Inv strict safe s (i :: ts) (i :: ps)) (hn : NoOrphan s)
    (hc : 0 < s.ref cwd) (ht : (s.inode i).type ≠ 0) (hd : (s.inode i).type ≠ tDir)
    (hmay : strict = true → ∀ dp, s.adds cwd new = some dp → 0 < (s.inode dp).nlink)
    (ho : Sys.linkInto s cwd i new = .ok (s', r)) : Inv strict safe s' ts ps := by
  rw [Sys.linkInto] at ho
  obtain ⟨⟨s₁, r₁⟩, h₁, ho⟩ := bind_ok ho
  obtain ⟨hs₁, hr₁, hi₁⟩ := h.namex hn hc h₁
  cases r₁ with
  | none =>
    rw [← hs₁.inode] at ht hd
    exact linkBad_ok hi₁ ht hd ho
  | some r₁ =>
    obtain ⟨dp, name⟩ := r₁
    obtain ⟨s₂, h₂, ho⟩ := bind_ok ho
    obtain ⟨hr₂, hs₂, -, -, -⟩ := hi₁.refs.ilock (hi₁.refs.pos_of_mem List.mem_cons_self) h₂
    have hi₂ := hi₁.same hs₂ hr₂
    have hs := hs₁.trans hs₂
    have hn₂ := hn.same hs
    rw [← hs.inode] at ht hd
    obtain ⟨⟨s₃, r₃⟩, h₃, ho⟩ := bind_ok ho
    have hmay₂ (hf : find (s₂.inode dp).dents name = none) (hstrict : strict = true) :
        0 < (s₂.inode dp).nlink := by
      rw [hs.inode] at hf ⊢
      exact hmay hstrict dp (adds_eq_some hr₁.symm hf)
    obtain ⟨hneg, hs₃, hi₃⟩ | ⟨rfl, hi₃⟩ := hi₂.dirlink hn₂ ht hd hmay₂ h₃
    · simp only [hneg, ↓reduceIte] at ho
      obtain ⟨hr₄, hs₄⟩ := hi₃.refs.iput_same (hn₂.same hs₃)
      rw [← (hs₃.trans hs₄).inode] at ht hd
      exact linkBad_ok (hi₃.same hs₄ hr₄) ht hd ho
    · cases ho
      exact hi₃.iput.iput

theorem Inv.bump (h : Inv strict safe s ts ps) (hn : NoOrphan s) (ht : (s.inode i).type ≠ 0)
    (hd : (s.inode i).type ≠ tDir) (hmax : (s.inode i).nlink ≠ 32767) :
    Inv strict safe (s.setNlink i ((s.inode i).nlink + 1)) ts (i :: ps) ∧
      NoOrphan (s.setNlink i ((s.inode i).nlink + 1)) := by
  have hpos : (s.inode i).nlink + 1 ≠ 0 := by
    have hnn := h.tree.nlink_nonneg ht
    rw [ne_eq, eq_zero_iff_toInt, toInt_add_one hmax]
    omega
  refine ⟨⟨h.tree.bump ht hd hmax, h.refs.setNlink hd fun h₀ => absurd h₀ hpos⟩, ?_⟩
  intro j hj hl
  by_cases hji : j = i
  · subst hji
    rw [setNlink_self] at hl
    exact absurd hl hpos
  · rw [setNlink_of_ne s _ hji] at hj hl
    exact hn j hj hl

theorem Inv.link (h : Inv strict safe s ts ps) (hn : NoOrphan s)
    (hc : s.held (.cwd p) = some cwd)
    (hmay : ∀ i name, s.lookup cwd old false = some (i, name) → (s.inode i).type ≠ tDir →
      (s.inode i).nlink ≠ 32767 ∧
        (strict = true → ∀ dp, s.adds cwd new = some dp → 0 < (s.inode dp).nlink))
    (ho : sysLink s cwd old new = .ok (s', r)) : Inv strict safe s' ts ps := by
  rw [sysLink] at ho
  obtain ⟨⟨s₁, r₁⟩, h₁, ho⟩ := bind_ok ho
  obtain ⟨hs₁, hr₁, hi₁⟩ := h.namex hn (h.refs.pos_of_held hc) h₁
  cases r₁ with
  | none =>
    cases ho
    exact hi₁
  | some r₁ =>
    obtain ⟨i, name₁⟩ := r₁
    obtain ⟨s₂, h₂, ho⟩ := bind_ok ho
    obtain ⟨hr₂, hs₂, -, -, ht⟩ := hi₁.refs.ilock (hi₁.refs.pos_of_mem List.mem_cons_self) h₂
    have hi₂ := hi₁.same hs₂ hr₂
    have hs := hs₁.trans hs₂
    split at ho
    · cases ho
      exact hi₂.iput
    · next hd =>
      have ht₂ : (s₂.inode i).type ≠ 0 := by
        rw [hs₂.inode]
        exact ht
      obtain ⟨hmax, hmay⟩ := hmay i name₁ hr₁.symm (by rw [← hs.inode]; exact hd)
      rw [← hs.inode] at hmax
      obtain ⟨hi₃, hn₃⟩ := hi₂.bump (hn.same hs) ht₂ hd hmax
      have hc₃ := hi₃.refs.pos_of_held (x := .cwd p) (i := cwd) (by
        rw [← hc, ← hs.held]
        rfl)
      apply hi₃.linkInto hn₃ hc₃ _ _ _ ho
      · rw [setNlink_type]
        exact ht₂
      · rw [setNlink_type]
        exact hd
      · intro hstrict dp hdp
        rw [adds_congr (s := s) (fun j => by rw [setNlink_type, hs.inode])
          (fun j => by rw [setNlink_dents, hs.inode])] at hdp
        have hdpi : dp ≠ i := by
          rintro rfl
          rw [hs.inode] at hd
          exact hd (adds_dir hdp)
        rw [setNlink_of_ne _ _ hdpi, hs.inode]
        exact hmay hstrict dp hdp

end Xv6.Sys
