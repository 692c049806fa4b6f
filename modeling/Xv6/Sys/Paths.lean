import Xv6.Sys.Boot
import Xv6.Sys.Steps

namespace Xv6.Sys
open Lib Fs
set_option autoImplicit true

variable {s s' s₀ : St} {f : Nat → Inode} {strict safe parent : Bool} {ts ps : List Nat}
variable {cwd d dp i j k n p type : Nat} {name path old new : List UInt8}
variable {major minor : Int16} {es : List (Pid × Call)} {α β : Type}

theorem Near.type_ne_zero (h : Near f cwd i) (hc : (f cwd).type = tDir) : (f i).type ≠ 0 := by
  obtain rfl | h := h
  · rw [hc]
    decide
  · exact h.1

theorem ilock_total (s : St) (h : (s.inode i).type ≠ 0) : ∃ s', ilock s i = .ok s' := by
  rw [ilock, if_neg h]
  split
  · exact ⟨_, rfl⟩
  · exact ⟨_, rfl⟩

theorem dirlookup_total (s : St) (name : List UInt8) (h : (s.inode d).type = tDir) :
    ∃ r, dirlookup s d name = .ok r := by
  rw [dirlookup, if_neg (not_not.2 h)]
  split
  · exact ⟨_, rfl⟩
  · exact ⟨_, rfl⟩

/-- What a process can name from its current directory, and what that takes. -/
structure Roams (s : St) (cwd : Nat) : Prop where
  dir : (s.inode cwd).type = tDir
  up : Linked s.inode (ent s.inode cwd 1)

theorem Roams.same (h : Roams s cwd) (hs : Same s s') : Roams s' cwd := by
  refine ⟨?_, ?_⟩
  · rw [hs.inode]
    exact h.dir
  · rw [hs.inode]
    exact h.up

theorem Inv.roams (h : Inv strict true s ts ps) (hc : s.held (.cwd p) = some cwd) :
    Roams s cwd :=
  ⟨h.refs.cwd p cwd hc, h.refs.above rfl p cwd hc⟩

theorem Inv.namexLoop_total {es : List (List UInt8)} (h : Inv strict safe s (i :: ts) ps)
    (hn : NoOrphan s) (hr : Roams s cwd) (hi : Near s.inode cwd i) :
    ∃ r, Sys.namexLoop s i parent es = .ok r := by
  induction es generalizing s i with
  | nil =>
    rw [Sys.namexLoop]
    split
    · exact ⟨_, rfl⟩
    · exact ⟨_, rfl⟩
  | cons name rest ih =>
    obtain ⟨s₁, h₁⟩ := ilock_total s (hi.type_ne_zero hr.dir)
    obtain ⟨hr₁, hs₁, -, -, -⟩ := h.refs.ilock (h.refs.pos_of_mem List.mem_cons_self) h₁
    have hi₁ := h.same hs₁ hr₁
    rw [Sys.namexLoop, h₁]
    simp only [bind, Except.bind]
    split
    · exact ⟨_, rfl⟩
    · next hd =>
      have hd := not_not.1 hd
      split
      · exact ⟨_, rfl⟩
      · obtain ⟨⟨s₂, q⟩, h₂⟩ := dirlookup_total s₁ name hd
        obtain ⟨-, hs₂, hq, hi₂⟩ := hi₁.dirlookup h₂
        rw [h₂]
        cases q with
        | none => exact ⟨_, rfl⟩
        | some q =>
          obtain ⟨off, next⟩ := q
          have hi₃ := hi₂.perm (List.Perm.swap i next ts)
          have hn₂ := hn.same (hs₁.trans hs₂)
          obtain ⟨hr₃, hs₃⟩ := hi₃.refs.iput_same hn₂
          have hs := (hs₁.trans hs₂).trans hs₃
          apply ih (hi₃.same hs₃ hr₃) (hn₂.same hs₃) (hr.same hs)
          rw [hs.inode]
          rw [hs₁.inode] at hq hd
          exact h.tree.near_find hr.up hi hd hq.symm

theorem Inv.namex_total (h : Inv strict safe s ts ps) (hn : NoOrphan s) (hc : 0 < s.ref cwd)
    (hr : Roams s cwd) (path : List UInt8) (parent : Bool) :
    ∃ r, Sys.namex s cwd path parent = .ok r := by
  rw [Sys.namex]
  split
  · have hs := same_iget s rootIno
    apply (h.same hs (h.refs.iget rootIno)).namexLoop_total (hn.same hs) (hr.same hs)
    exact .inr ⟨by rw [hs.inode, h.tree.root.1]; decide, by rw [hs.inode]; exact h.tree.root.2⟩
  · have hs := same_idup s cwd
    exact (h.same hs (h.refs.idup hc)).namexLoop_total (hn.same hs) (hr.same hs) (.inl rfl)

/-- The call does not end in the panic of `ilock`. -/
def Locks (x : Except Fault α) : Prop := x ≠ .error (.panic "ilock: no type")

theorem Locks.bind {x : Except Fault α} {g : α → Except Fault β} (h : Locks x)
    (hg : ∀ a, x = .ok a → Locks (g a)) : Locks (x >>= g) := by
  intro he
  rcases bind_error he with hx | ⟨a, hx, ha⟩
  · exact h hx
  · exact hg a hx ha

theorem locks_ok (a : α) : Locks (.ok a) := by
  intro h
  cases h

theorem locks_panic {msg : String} (h : msg ≠ "ilock: no type") :
    Locks (.error (.panic msg) : Except Fault α) := by
  intro he
  apply h
  injection he with he
  injection he

theorem locks_of_exists {x : Except Fault α} (h : ∃ a, x = .ok a) : Locks x := by
  obtain ⟨a, rfl⟩ := h
  exact locks_ok a

theorem locks_ialloc (s : St) (type : Nat) : Locks (ialloc s type) := by
  rw [ialloc]
  split
  · exact locks_ok _
  · exact locks_panic (by decide)

theorem locks_dirlookup (s : St) (d : Nat) (name : List UInt8) : Locks (dirlookup s d name) := by
  rw [dirlookup]
  split
  · exact locks_panic (by decide)
  · split
    · exact locks_ok _
    · exact locks_ok _

theorem locks_dirlink (s : St) (d : Nat) (name : List UInt8) (i : Nat) :
    Locks (dirlink s d name i) := by
  rw [dirlink]
  apply (locks_dirlookup s d name).bind
  rintro ⟨s₁, q⟩ -
  cases q with
  | none =>
    simp only
    split
    · exact locks_panic (by decide)
    · exact locks_ok _
  | some q => exact locks_ok _

theorem locks_makeDots (s : St) (dp i : Nat) : Locks (makeDots s dp i) := by
  rw [makeDots]
  apply (locks_dirlink _ _ _ _).bind
  rintro ⟨s₁, r₁⟩ -
  simp only
  split
  · exact locks_panic (by decide)
  · apply (locks_dirlink _ _ _ _).bind
    rintro ⟨s₂, r₂⟩ -
    simp only
    split
    · exact locks_panic (by decide)
    · exact locks_ok _

theorem locks_createIn (htype : type ≠ 0) : Locks (createIn s dp name type major minor) := by
  rw [createIn]
  apply (locks_ialloc s type).bind
  rintro ⟨s₁, i⟩ h₁
  obtain ⟨-, -, -, rfl⟩ := ialloc_ok h₁
  apply Locks.bind
  · apply locks_of_exists (ilock_total _ _)
    simpa [iget, St.setInode] using htype
  · intro s₂ _
    apply Locks.bind
    · split
      · exact locks_makeDots _ _ _
      · exact locks_ok _
    · intro s₃ _
      apply (locks_dirlink _ _ _ _).bind
      rintro ⟨s₄, r⟩ -
      simp only
      split
      · exact locks_panic (by decide)
      · exact locks_ok _

theorem Inv.locks_create (h : Inv strict safe s ts ps) (hn : NoOrphan s) (hc : 0 < s.ref cwd)
    (hr : Roams s cwd) (htype : type ≠ 0) :
    Locks (Sys.create s cwd path type major minor) := by
  rw [Sys.create]
  apply (locks_of_exists (h.namex_total hn hc hr path true)).bind
  rintro ⟨s₁, q⟩ h₁
  obtain ⟨hs₁, hq, hi₁⟩ := h.namex hn hc h₁
  cases q with
  | none => exact locks_ok _
  | some q =>
    obtain ⟨dp, name⟩ := q
    have hd := walk_parent hq.symm
    have hdp := h.tree.near_walk hr.up (h.tree.near_start cwd path) hq.symm
    apply Locks.bind
    · apply locks_of_exists (ilock_total _ _)
      rw [hs₁.inode, hd]
      decide
    · intro s₂ h₂
      obtain ⟨hr₂, hs₂, -, -, -⟩ := hi₁.refs.ilock (hi₁.refs.pos_of_mem List.mem_cons_self) h₂
      apply (locks_dirlookup _ _ _).bind
      rintro ⟨s₃, q₃⟩ h₃
      obtain ⟨-, hs₃, hq₃, hi₃⟩ := (hi₁.same hs₂ hr₂).dirlookup h₃
      cases q₃ with
      | none => exact locks_createIn htype
      | some q₃ =>
        obtain ⟨off, i⟩ := q₃
        have hi₄ := hi₃.perm (List.Perm.swap dp i ts)
        have hs := (hs₁.trans hs₂).trans hs₃
        obtain ⟨-, hs₄⟩ := hi₄.refs.iput_same (hn.same hs)
        rw [(hs₁.trans hs₂).inode] at hq₃
        apply Locks.bind
        · apply locks_of_exists (ilock_total _ _)
          rw [(hs.trans hs₄).inode]
          exact (h.tree.near_find hr.up hdp hd hq₃.symm).type_ne_zero hr.dir
        · intro s₅ _
          split
          · exact locks_ok _
          · exact locks_ok _

theorem Inv.locks_open (h : Inv strict safe s ts ps) (hn : NoOrphan s) (hc : 0 < s.ref cwd)
    (hr : Roams s cwd) (p : Pid) (omode : Nat) (filealloc : Bool) :
    Locks (sysOpen s p cwd path omode filealloc) := by
  rw [sysOpen]
  split
  · apply (h.locks_create hn hc hr (by decide)).bind
    rintro ⟨s₁, q⟩ -
    cases q with
    | none => exact locks_ok _
    | some i => exact locks_ok _
  · apply (locks_of_exists (h.namex_total hn hc hr path false)).bind
    rintro ⟨s₁, q⟩ h₁
    obtain ⟨hs₁, hq, -⟩ := h.namex hn hc h₁
    cases q with
    | none => exact locks_ok _
    | some q =>
      obtain ⟨i, name⟩ := q
      have hi := h.tree.near_walk hr.up (h.tree.near_start cwd path) hq.symm
      apply Locks.bind
      · apply locks_of_exists (ilock_total _ _)
        rw [hs₁.inode]
        exact hi.type_ne_zero hr.dir
      · intro s₂ _
        split
        · exact locks_ok _
        · exact locks_ok _

theorem Inv.locks_make (h : Inv strict safe s ts ps) (hn : NoOrphan s) (hc : 0 < s.ref cwd)
    (hr : Roams s cwd) (htype : type ≠ 0) :
    Locks (sysMake s cwd path type major minor) := by
  rw [sysMake]
  apply (h.locks_create hn hc hr htype).bind
  rintro ⟨s₁, q⟩ -
  cases q with
  | none => exact locks_ok _
  | some i => exact locks_ok _

theorem Inv.locks_chdir (h : Inv strict safe s ts ps) (hn : NoOrphan s) (hc : 0 < s.ref cwd)
    (hr : Roams s cwd) (p : Pid) : Locks (sysChdir s p cwd path) := by
  rw [sysChdir]
  apply (locks_of_exists (h.namex_total hn hc hr path false)).bind
  rintro ⟨s₁, q⟩ h₁
  obtain ⟨hs₁, hq, -⟩ := h.namex hn hc h₁
  cases q with
  | none => exact locks_ok _
  | some q =>
    obtain ⟨i, name⟩ := q
    have hi := h.tree.near_walk hr.up (h.tree.near_start cwd path) hq.symm
    apply Locks.bind
    · apply locks_of_exists (ilock_total _ _)
      rw [hs₁.inode]
      exact hi.type_ne_zero hr.dir
    · intro s₂ _
      split
      · exact locks_ok _
      · exact locks_ok _

theorem locks_unlinkAt (s : St) (dp off i : Nat) : Locks (unlinkAt s dp off i) := by
  rw [unlinkAt]
  split
  · exact locks_panic (by decide)
  · split
    · exact locks_ok _
    · exact locks_ok _

theorem Inv.locks_unlink (h : Inv strict safe s ts ps) (hn : NoOrphan s) (hc : 0 < s.ref cwd)
    (hr : Roams s cwd) : Locks (sysUnlink s cwd path) := by
  rw [sysUnlink]
  apply (locks_of_exists (h.namex_total hn hc hr path true)).bind
  rintro ⟨s₁, q⟩ h₁
  obtain ⟨hs₁, hq, hi₁⟩ := h.namex hn hc h₁
  cases q with
  | none => exact locks_ok _
  | some q =>
    obtain ⟨dp, name⟩ := q
    have hd := walk_parent hq.symm
    have hdp := h.tree.near_walk hr.up (h.tree.near_start cwd path) hq.symm
    apply Locks.bind
    · apply locks_of_exists (ilock_total _ _)
      rw [hs₁.inode, hd]
      decide
    · intro s₂ h₂
      obtain ⟨hr₂, hs₂, -, -, -⟩ := hi₁.refs.ilock (hi₁.refs.pos_of_mem List.mem_cons_self) h₂
      split
      · exact locks_ok _
      · apply (locks_dirlookup _ _ _).bind
        rintro ⟨s₃, q₃⟩ h₃
        obtain ⟨-, hs₃, hq₃, -⟩ := (hi₁.same hs₂ hr₂).dirlookup h₃
        have hs := hs₁.trans hs₂
        cases q₃ with
        | none => exact locks_ok _
        | some q₃ =>
          obtain ⟨off, i⟩ := q₃
          rw [hs.inode] at hq₃
          apply Locks.bind
          · apply locks_of_exists (ilock_total _ _)
            rw [(hs.trans hs₃).inode]
            exact (h.tree.near_find hr.up hdp hd hq₃.symm).type_ne_zero hr.dir
          · intro s₄ _
            exact locks_unlinkAt _ _ _ _

theorem locks_linkBad (ht : (s.inode i).type ≠ 0) : Locks (linkBad s i) := by
  rw [linkBad]
  apply (locks_of_exists (ilock_total s ht)).bind
  intro s₁ _
  exact locks_ok _

theorem Inv.locks_linkInto (h : Inv strict safe s (i :: ts) ps) (hn : NoOrphan s)
    (hc : 0 < s.ref cwd) (hr : Roams s cwd) (ht : (s.inode i).type ≠ 0) :
    Locks (Sys.linkInto s cwd i new) := by
  rw [Sys.linkInto]
  apply (locks_of_exists (h.namex_total hn hc hr new true)).bind
  rintro ⟨s₁, q⟩ h₁
  obtain ⟨hs₁, hq, hi₁⟩ := h.namex hn hc h₁
  cases q with
  | none =>
    apply locks_linkBad
    rw [hs₁.inode]
    exact ht
  | some q =>
    obtain ⟨dp, name⟩ := q
    have hd := walk_parent hq.symm
    apply Locks.bind
    · apply locks_of_exists (ilock_total _ _)
      rw [hs₁.inode, hd]
      decide
    · intro s₂ h₂
      obtain ⟨hr₂, hs₂, -, -, -⟩ := hi₁.refs.ilock (hi₁.refs.pos_of_mem List.mem_cons_self) h₂
      have hs := hs₁.trans hs₂
      apply (locks_dirlink _ _ _ _).bind
      rintro ⟨s₃, r⟩ h₃
      obtain ⟨-, ⟨off, j, -, rfl, rfl⟩ | ⟨-, rfl, rfl⟩⟩ := dirlink_ok h₃
      · have hs₃ := same_iget s₂ j
        have hn₃ := hn.same (hs.trans hs₃)
        obtain ⟨hr₄, hs₄⟩ := (hr₂.iget j).iput_same hn₃
        obtain ⟨-, hs₅⟩ := hr₄.iput_same (hn₃.same hs₄)
        apply locks_linkBad
        rw [((hs₃.trans hs₄).trans hs₅).inode, hs.inode]
        exact ht
      · exact locks_ok _

theorem Roams.setNlink (h : Roams s cwd) (hd : (s.inode i).type ≠ tDir) (v : Int16) :
    Roams (s.setNlink i v) cwd := by
  have hne : ent s.inode cwd 1 ≠ i := by
    intro he
    exact hd (by rw [← he]; exact h.up.1)
  refine ⟨?_, ?_⟩
  · rw [setNlink_type]
    exact h.dir
  · rw [ent, setNlink_dents, ← ent, Linked, setNlink_of_ne _ _ hne]
    exact h.up

theorem Inv.locks_link (h : Inv strict true s ts ps) (hn : NoOrphan s)
    (hc : s.held (.cwd p) = some cwd)
    (hmax : ∀ i name, s.lookup cwd old false = some (i, name) → (s.inode i).type ≠ tDir →
      (s.inode i).nlink ≠ 32767) : Locks (sysLink s cwd old new) := by
  have hr := h.roams hc
  have hpos := h.refs.pos_of_held hc
  rw [sysLink]
  apply (locks_of_exists (h.namex_total hn hpos hr old false)).bind
  rintro ⟨s₁, q⟩ h₁
  obtain ⟨hs₁, hq, hi₁⟩ := h.namex hn hpos h₁
  cases q with
  | none => exact locks_ok _
  | some q =>
    obtain ⟨i, name⟩ := q
    have hi := h.tree.near_walk hr.up (h.tree.near_start cwd old) hq.symm
    apply Locks.bind
    · apply locks_of_exists (ilock_total _ _)
      rw [hs₁.inode]
      exact hi.type_ne_zero hr.dir
    · intro s₂ h₂
      obtain ⟨hr₂, hs₂, -, -, ht⟩ := hi₁.refs.ilock (hi₁.refs.pos_of_mem List.mem_cons_self) h₂
      have hs := hs₁.trans hs₂
      split
      · exact locks_ok _
      · next hd =>
        have ht₂ : (s₂.inode i).type ≠ 0 := by
          rw [hs₂.inode]
          exact ht
        have hmax₂ : (s₂.inode i).nlink ≠ 32767 := by
          rw [hs.inode] at hd ⊢
          exact hmax i name hq.symm hd
        obtain ⟨hi₃, hn₃⟩ := (hi₁.same hs₂ hr₂).bump (hn.same hs) ht₂ hd hmax₂
        have hc₂ : s₂.held (.cwd p) = some cwd := by
          rw [hs.held]
          exact hc
        apply hi₃.locks_linkInto hn₃ (hr₂.pos_of_held hc₂) ((hr.same hs).setNlink hd _)
        rw [setNlink_type]
        exact ht₂

/-- No system call panics in `ilock`. -/
theorem Inv.locks_step {e : Pid × Call} (h : Inv strict true s [] [])
    (hl : legal strict true s e) : Locks (Sys.step s e) := by
  obtain ⟨p, a⟩ := e
  have hn := h.refs.noOrphan
  rw [Sys.step]
  split
  · next cwd hc =>
    have hr := h.roams hc
    have hpos := h.refs.pos_of_held hc
    apply Locks.bind
    · cases a with
      | open_ path omode filealloc => exact h.locks_open hn hpos hr p omode filealloc
      | mkdir path => exact h.locks_make hn hpos hr (by decide)
      | mknod path major minor => exact h.locks_make hn hpos hr (by decide)
      | link old new =>
        exact h.locks_link hn hc fun i name hi hd => (hl cwd hc i name hi hd).1
      | unlink path => exact h.locks_unlink hn hpos hr
      | chdir path => exact h.locks_chdir hn hpos hr p
      | close fd => exact locks_ok _
      | exit => exact locks_ok _
    · rintro ⟨s₁, r⟩ -
      exact locks_ok _
  · intro he
    cases he

inductive Reach (f : Nat → Inode) : Nat → Prop where
  | root : Reach f rootIno
  | entry {d k : Nat} : Reach f d → (f d).type = tDir → ent f d k ≠ 0 → Reach f (ent f d k)

theorem Tree.near_reach (h : Tree strict ps n f) (hr : Reach f d) : Near f rootIno d := by
  induction hr with
  | root => exact .inl rfl
  | entry _ hd hk ih =>
    apply h.near _ ih hd hk
    rw [h.root_up]
    exact h.root

theorem Dots.find_up {dents : List Dirent} (h : Dots d dents) :
    find dents [46, 46] = some (1, (entry dents 1).inum) := by
  cases hf : find dents [46, 46] with
  | none => exact absurd h.dotdot.symm (find_none hf h.up)
  | some q =>
    obtain ⟨k, i⟩ := q
    obtain ⟨rfl, hi, hkey, -⟩ := find_some hf
    have hk : k = 1 := by
      by_contra hk1
      obtain rfl | hk2 : k = 0 ∨ 2 ≤ k := by omega
      · rw [h.dot] at hkey
        exact absurd hkey (by decide)
      · exact (h.rest k hk2 hi).2 hkey.symm
    rw [hk]

/-- No lookup meets a freed inode while no directory is removed that is ".." in some current
directory, none is made in a removed one and no link count overflows. -/
theorem lookups_find_allocated (h₀ : Inv false true s₀ [] [])
    (hx : Exec step (legal false true) s₀ es s) :
    (∀ d, Reach s.inode d ∨ (∃ p, s.held (.cwd p) = some d) → (s.inode d).type = tDir →
      (∀ k, ent s.inode d k ≠ 0 → (s.inode (ent s.inode d k)).type ≠ 0) ∧
      ∃ k i, find (s.inode d).dents [46, 46] = some (k, i) ∧ (s.inode i).type = tDir) ∧
    (∀ p cwd path parent, s.held (.cwd p) = some cwd →
      ∃ r, namex s cwd path parent = .ok r) ∧
    ∀ e, legal false true s e → step s e ≠ .error (.panic "ilock: no type") := by
  have h := h₀.exec hx
  refine ⟨?_, ?_, fun e hl => h.locks_step hl⟩
  · intro d hd hdir
    have hroot : Linked s.inode (ent s.inode rootIno 1) := by
      rw [h.tree.root_up]
      exact h.tree.root
    have hup : Linked s.inode (ent s.inode d 1) := by
      rcases hd with hd | ⟨p, hp⟩
      · exact h.tree.up_of_near hroot (h.tree.near_reach hd) hdir
      · exact h.refs.above rfl p d hp
    exact ⟨fun k hk => (h.tree.near hup (.inl rfl) hdir hk).type_ne_zero hdir, 1, _,
      (h.tree.dots d hdir).find_up, hup.1⟩
  · intro p cwd path parent hp
    exact h.namex_total h.refs.noOrphan (h.refs.pos_of_held hp) (h.roams hp) path parent

def twoDirs : List (Pid × Call) :=
  [(0, .mkdir [97]), (0, .mkdir [98]), (1, .chdir [98]), (1, .open_ [120] oCreate true),
    (0, .chdir [47, 97])]

theorem lookups_find_allocated_twoDirs : ∃ s, Exec step (legal false true) (boot 8 rootFs 2)
    (twoDirs ++ [(1, .unlink [46, 46, 47, 97])]) s ∧
      ∀ p cwd path parent, s.held (.cwd p) = some cwd →
        ∃ r, namex s cwd path parent = .ok r := by
  have hr : (runLegal step (checked true) (boot 8 rootFs 2) twoDirs).any (fun s =>
      s.held (.cwd 1) = some 3 ∧ s.removes 3 [46, 46, 47, 97] = some 2 ∧
      s.ninodes = 8 ∧ (∀ c < 8, (s.inode c).type = tDir → ent s.inode c 1 ≠ 2) ∧
      (step s (1, .unlink [46, 46, 47, 97])).toBool = true) = true := by
    decide +kernel
  obtain ⟨s, hs, hq⟩ := (Option.any_eq_true _ _).1 hr
  obtain ⟨hc, hrem, hn, hup, hok⟩ := of_decide_eq_true hq
  have h₀ : Inv false true (boot 8 rootFs 2) [] [] := inv_rootFs (by decide) (by decide) 2
  have he : Exec step (legal false true) (boot 8 rootFs 2) twoDirs s :=
    (exec_of_runLegal _ _ _ _ hs).mono fun _ _ hl => legal_of_checked hl
  have h := h₀.exec he
  have hl : legal false true s (1, .unlink [46, 46, 47, 97]) := by
    intro cwd hcwd _ i hi q c hcq
    obtain rfl := Option.some.inj (hc.symm.trans hcwd)
    obtain rfl := Option.some.inj (hrem.symm.trans hi)
    have hdir := h.refs.cwd q c hcq
    have hlt := (h.tree.inum c (by rw [hdir]; decide)).2
    rw [hn] at hlt
    exact hup c hlt hdir
  obtain ⟨s', hs'⟩ : ∃ s', step s (1, .unlink [46, 46, 47, 97]) = .ok s' := by
    cases hst : step s (1, .unlink [46, 46, 47, 97]) with
    | error e =>
      rw [hst] at hok
      cases hok
    | ok s' => exact ⟨s', rfl⟩
  have he' := he.snoc hl hs'
  exact ⟨s', he', (lookups_find_allocated h₀ he').2.1⟩

/-- A process stays in a removed directory while that above is removed, too. -/
def removedParentRun : List (Pid × Call) :=
  [(0, .mkdir [97]), (0, .mkdir [97, 47, 98]), (0, .chdir [97, 47, 98]),
    (0, .unlink [47, 97, 47, 98]), (0, .unlink [47, 97])]

/-- ".." is then a freed inode, and `namei("../x")` panics. -/
theorem removedParentRun_panics :
    ∃ s, Exec step (fun _ _ => True) (boot 8 rootFs 1) removedParentRun s ∧
      s.held (.cwd 0) = some 3 ∧ (s.inode 3).type = tDir ∧
      find (s.inode 3).dents [46, 46] = some (1, 2) ∧ (s.inode 2).type = 0 ∧
      namex s 3 [46, 46, 47, 120] false = .error (.panic "ilock: no type") := by
  have hr : (runLegal step (fun _ _ => true) (boot 8 rootFs 1) removedParentRun).any (fun s =>
      (s.held (.cwd 0) = some 3 ∧ (s.inode 3).type = tDir ∧
        find (s.inode 3).dents [46, 46] = some (1, 2) ∧ (s.inode 2).type = 0) &&
      match namex s 3 [46, 46, 47, 120] false with
      | .error f => f == .panic "ilock: no type"
      | .ok _ => false) = true := by
    decide +kernel
  obtain ⟨s, hs, hq⟩ := (Option.any_eq_true _ _).1 hr
  obtain ⟨hq, hp⟩ := Bool.and_eq_true_iff.1 hq
  obtain ⟨h₁, h₂, h₃, h₄⟩ := of_decide_eq_true hq
  refine ⟨s, (exec_of_runLegal _ _ _ _ hs).mono fun _ _ _ => trivial, h₁, h₂, h₃, h₄, ?_⟩
  split at hp
  · next he => rw [he, beq_iff_eq.1 hp]
  · cases hp

end Xv6.Sys
