import Xv6.Sys.Unlink

namespace Xv6.Sys
open Lib Fs Function
set_option autoImplicit true

variable {s s' : St} {f : Nat → Inode} {strict safe parent : Bool} {r : Int} {x : Slot}
variable {ts ps : List Nat} {c cwd d i j k n p type : Nat} {o : Option Nat}
variable {name path : List UInt8} {es : List (List UInt8)} {major minor : Int16}

theorem count_toList (o : Option Nat) (j : Nat) : o.toList.count j = (o == some j).toNat := by
  cases o with
  | none => rfl
  | some i =>
    by_cases hij : i = j
    · simp [hij]
    · have hb : (some i == some j) = false := by simpa using hij
      rw [hb, Option.toList_some, List.count_cons_of_ne hij]
      rfl

theorem Inv.setHeld (h : Inv strict safe s (o.toList ++ ts) ps)
    (ht : ∀ i, o = some i → (s.inode i).type ≠ 0)
    (hc : ∀ p i, x = .cwd p → o = some i → (s.inode i).type = tDir ∧
      (safe = true → Linked s.inode (ent s.inode i 1))) :
    Inv strict safe (s.setHeld x o) ((s.held x).toList ++ ts) ps := by
  refine ⟨h.tree, ?_, ?_, ?_, ?_, ?_, ?_⟩
  · intro j
    obtain ⟨m, hm, hr⟩ := h.refs.count j
    obtain ⟨m', hm', he⟩ := hm.update x o
    refine ⟨m', hm', ?_⟩
    rw [List.count_append, count_toList] at hr ⊢
    simp only [St.setHeld]
    omega
  · exact h.refs.valid
  · intro y j hy
    by_cases hyx : y = x
    · subst hyx
      simp only [St.setHeld, update_self] at hy
      exact ht j hy
    · simp only [St.setHeld, update_of_ne hyx] at hy
      exact h.refs.held y j hy
  · intro p j hy
    by_cases hyx : Slot.cwd p = x
    · subst hyx
      simp only [St.setHeld, update_self] at hy
      exact (hc p j rfl hy).1
    · simp only [St.setHeld, update_of_ne hyx] at hy
      exact h.refs.cwd p j hy
  · intro j h₁ h₂
    obtain ⟨hv, ⟨y, hy⟩ | hj⟩ := h.refs.orphan j h₁ h₂
    · refine ⟨hv, ?_⟩
      by_cases hyx : y = x
      · subst hyx
        right
        rw [hy]
        exact List.mem_cons_self
      · exact .inl ⟨y, by simp only [St.setHeld, update_of_ne hyx, hy]⟩
    · refine ⟨hv, ?_⟩
      rcases List.mem_append.1 hj with hj | hj
      · left
        refine ⟨x, ?_⟩
        simp only [St.setHeld, update_self]
        exact Option.mem_toList.1 hj
      · exact .inr (List.mem_append_right _ hj)
  · intro hs p j hy
    by_cases hyx : Slot.cwd p = x
    · subst hyx
      simp only [St.setHeld, update_self] at hy
      exact (hc p j rfl hy).2 hs
    · simp only [St.setHeld, update_of_ne hyx] at hy
      exact h.refs.above hs p j hy

theorem Inv.drop (h : Inv strict safe s ts ps) (x : Slot) :
    Inv strict safe (Sys.drop s x) ts ps := by
  rw [Sys.drop]
  split
  · next i hx =>
    have h' := Inv.setHeld (x := x) (o := none) h (fun i hi => by cases hi)
      fun p i _ hi => by cases hi
    rw [hx] at h'
    exact h'.iput
  · exact h

theorem Inv.close (h : Inv strict safe s ts ps) (p : Pid) (fd : Nat) :
    Inv strict safe (sysClose s p fd).1 ts ps := by
  rw [sysClose]
  split
  · exact h.drop _
  · exact h

theorem Inv.exit (h : Inv strict safe s ts ps) (p : Pid) :
    Inv strict safe (Sys.exit s p) ts ps := by
  have hl (l : List Nat) (s : St) (h : Inv strict safe s ts ps) :
      Inv strict safe (l.foldl (fun s n => Sys.drop s (.fd p n)) s) ts ps := by
    induction l generalizing s with
    | nil => exact h
    | cons n l ih => exact ih _ (h.drop _)
  exact (hl _ s h).drop _

theorem Inv.openFile (h : Inv strict safe s (i :: ts) ps) (ht : (s.inode i).type ≠ 0) (p : Pid)
    (filealloc : Bool) : Inv strict safe (Sys.openFile s p i filealloc).1 ts ps := by
  cases hf : fdalloc s p with
  | none =>
    simp only [Sys.openFile, hf]
    exact h.iput
  | some fd =>
    cases filealloc with
    | false => exact h.iput
    | true =>
      have hfree : s.held (.fd p fd) = none := by
        simpa using List.find?_some hf
      have h' := Inv.setHeld (x := .fd p fd) (o := some i) h (fun j hj => by cases hj; exact ht)
        fun p j hx => by cases hx
      rw [hfree] at h'
      simp only [Sys.openFile, hf]
      exact h'

theorem Inv.enter (h : Inv strict safe s (i :: ts) ps) (hd : (s.inode i).type = tDir)
    (hcwd : s.held (.cwd p) = some cwd)
    (hu : safe = true → Linked s.inode (ent s.inode i 1)) :
    Inv strict safe ((Sys.iput s cwd).setHeld (.cwd p) (some i)) ts ps := by
  have h' := Inv.setHeld (x := .cwd p) (o := some i) h
    (fun j hj => by cases hj; rw [hd]; decide)
    fun q j _ hj => by cases hj; exact ⟨hd, hu⟩
  rw [hcwd] at h'
  have he : (Sys.iput s cwd).setHeld (.cwd p) (some i) =
      Sys.iput (s.setHeld (.cwd p) (some i)) cwd := by
    by_cases hk : s.valid cwd = true ∧ (s.inode cwd).nlink = 0 ∧ s.ref cwd = 1
    · simp only [Sys.iput, St.setHeld, hk, and_self, ↓reduceIte]
      rfl
    · simp only [Sys.iput, St.setHeld, hk, ↓reduceIte]
  rw [he]
  exact h'.iput

/-- An inode that a process in directory `cwd` can name. -/
def Near (f : Nat → Inode) (cwd i : Nat) : Prop :=
  i = cwd ∨ (f i).type ≠ 0 ∧ 0 < (f i).nlink

theorem Tree.near (h : Tree strict ps n f) (hup : Linked f (ent f cwd 1)) (hi : Near f cwd i)
    (hd : (f i).type = tDir) (hk : ent f i k ≠ 0) : Near f cwd (ent f i k) := by
  obtain rfl | rfl | hk2 : k = 0 ∨ k = 1 ∨ 2 ≤ k := by omega
  · rw [ent, (h.dots i hd).self]
    exact hi
  · right
    obtain rfl | hi := hi
    · exact ⟨by rw [hup.1]; decide, hup.2⟩
    · have hl := h.linked_up ⟨hd, hi.2⟩
      exact ⟨by rw [hl.1]; decide, hl.2⟩
  · right
    exact h.of_named hk (named_ge (x := (i, k)) hk2 hd)

theorem Tree.near_find (h : Tree strict ps n f) (hup : Linked f (ent f cwd 1))
    (hi : Near f cwd i) (hd : (f i).type = tDir) (hf : find (f i).dents name = some (k, j)) :
    Near f cwd j := by
  obtain ⟨rfl, hj, -, -⟩ := find_some hf
  exact h.near hup hi hd hj

theorem Tree.near_walk (h : Tree strict ps n f) (hup : Linked f (ent f cwd 1))
    (hi : Near f cwd i) (hw : walk f i parent es = some (j, name)) : Near f cwd j := by
  induction es generalizing i with
  | nil =>
    rw [walk] at hw
    split at hw
    · cases hw
    · cases hw
      exact hi
  | cons e rest ih =>
    rw [walk] at hw
    obtain ⟨ht, hw⟩ := Option.ite_none_left_eq_some.1 hw
    split at hw
    · cases hw
      exact hi
    · split at hw
      · cases hw
      · next hf => exact ih (h.near_find hup hi (not_not.1 ht) hf) hw

theorem Tree.near_start (h : Tree strict ps n f) (cwd : Nat) (path : List UInt8) :
    Near f cwd (start cwd path) := by
  rw [start]
  split
  · exact .inr ⟨by rw [h.root.1]; decide, h.root.2⟩
  · exact .inl rfl

theorem Tree.up_of_near (h : Tree strict ps n f) (hup : Linked f (ent f cwd 1))
    (hi : Near f cwd i) (hd : (f i).type = tDir) : Linked f (ent f i 1) := by
  obtain rfl | hi := hi
  · exact hup
  · exact h.linked_up ⟨hd, hi.2⟩

theorem Inv.chdir (h : Inv strict safe s ts ps) (hn : NoOrphan s)
    (hc : s.held (.cwd p) = some cwd) (ho : sysChdir s p cwd path = .ok (s', r)) :
    Inv strict safe s' ts ps := by
  rw [sysChdir] at ho
  obtain ⟨⟨s₁, r₁⟩, h₁, ho⟩ := bind_ok ho
  obtain ⟨hs₁, hr₁, hi₁⟩ := h.namex hn (h.refs.pos_of_held hc) h₁
  cases r₁ with
  | none =>
    cases ho
    exact hi₁
  | some r₁ =>
    obtain ⟨i, name⟩ := r₁
    obtain ⟨s₂, h₂, ho⟩ := bind_ok ho
    obtain ⟨hr₂, hs₂, -, -, -⟩ := hi₁.refs.ilock (hi₁.refs.pos_of_mem List.mem_cons_self) h₂
    have hi₂ := hi₁.same hs₂ hr₂
    have hs := hs₁.trans hs₂
    split at ho
    · cases ho
      exact hi₂.iput
    · next hd =>
      cases ho
      apply hi₂.enter (not_not.1 hd)
      · rw [hs.held]
        exact hc
      · intro hsf
        rw [hs.inode] at hd ⊢
        have hup := h.refs.above hsf p cwd hc
        exact h.tree.up_of_near hup
          (h.tree.near_walk hup (h.tree.near_start cwd path) hr₁.symm) (not_not.1 hd)

theorem Inv.open (h : Inv strict safe s ts ps) (hn : NoOrphan s)
    (hc : s.held (.cwd p) = some cwd) {omode : Nat} {filealloc : Bool}
    (hmay : omode &&& oCreate ≠ 0 → ∀ dp, s.adds cwd path = some dp →
      MayCreate strict tFile (s.inode dp))
    (ho : sysOpen s p cwd path omode filealloc = .ok (s', r)) : Inv strict safe s' ts ps := by
  have hpos := h.refs.pos_of_held hc
  rw [sysOpen] at ho
  split at ho
  · next hm =>
    obtain ⟨⟨s₁, r₁⟩, h₁, ho⟩ := bind_ok ho
    obtain ⟨hi₁, -, ht⟩ := h.create hn hpos (by decide)
      (fun dp name hl hf => hmay hm dp (adds_eq_some hl hf)) h₁
    cases r₁ with
    | none =>
      cases ho
      exact hi₁
    | some i =>
      obtain rfl : (Sys.openFile s₁ p i filealloc).1 = s' :=
        congrArg Prod.fst (Except.ok.inj ho)
      exact hi₁.openFile (ht i rfl) p filealloc
  · obtain ⟨⟨s₁, r₁⟩, h₁, ho⟩ := bind_ok ho
    obtain ⟨hs₁, -, hi₁⟩ := h.namex hn hpos h₁
    cases r₁ with
    | none =>
      cases ho
      exact hi₁
    | some r₁ =>
      obtain ⟨i, name⟩ := r₁
      obtain ⟨s₂, h₂, ho⟩ := bind_ok ho
      obtain ⟨hr₂, hs₂, -, -, ht⟩ := hi₁.refs.ilock (hi₁.refs.pos_of_mem List.mem_cons_self) h₂
      have hi₂ := hi₁.same hs₂ hr₂
      split at ho
      · cases ho
        exact hi₂.iput
      · obtain rfl : (Sys.openFile s₂ p i filealloc).1 = s' :=
          congrArg Prod.fst (Except.ok.inj ho)
        apply hi₂.openFile
        rw [hs₂.inode]
        exact ht

theorem Inv.make (h : Inv strict safe s ts ps) (hn : NoOrphan s)
    (hc : s.held (.cwd p) = some cwd) (htype : type ≠ 0)
    (hmay : ∀ dp, s.adds cwd path = some dp → MayCreate strict type (s.inode dp))
    (ho : sysMake s cwd path type major minor = .ok (s', r)) : Inv strict safe s' ts ps := by
  rw [sysMake] at ho
  obtain ⟨⟨s₁, r₁⟩, h₁, ho⟩ := bind_ok ho
  obtain ⟨hi₁, -, -⟩ := h.create hn (h.refs.pos_of_held hc) htype
    (fun dp name hl hf => hmay dp (adds_eq_some hl hf)) h₁
  cases r₁ with
  | none =>
    cases ho
    exact hi₁
  | some i =>
    cases ho
    exact hi₁.iput

/-- No link count overflows, and no directory is made in a removed one. If `strict`, nothing is
added to one. If `safe`, none is removed that is ".." in some current directory. -/
def Legal (strict safe : Bool) (s : St) (cwd : Nat) : Call → Prop
  | .open_ path omode _ => omode &&& oCreate ≠ 0 →
    ∀ dp, s.adds cwd path = some dp → MayCreate strict tFile (s.inode dp)
  | .mkdir path => ∀ dp, s.adds cwd path = some dp → MayCreate strict tDir (s.inode dp)
  | .mknod path _ _ => ∀ dp, s.adds cwd path = some dp → MayCreate strict tDev (s.inode dp)
  | .link old new => ∀ i name, s.lookup cwd old false = some (i, name) →
    (s.inode i).type ≠ tDir → (s.inode i).nlink ≠ 32767 ∧
      (strict = true → ∀ dp, s.adds cwd new = some dp → 0 < (s.inode dp).nlink)
  | .unlink path => safe = true → ∀ i, s.removes cwd path = some i →
    ∀ q c, s.held (.cwd q) = some c → ent s.inode c 1 ≠ i
  | .chdir _ | .close _ | .exit => True

def legal (strict safe : Bool) (s : St) (e : Pid × Call) : Prop :=
  ∀ cwd, s.held (.cwd e.1) = some cwd → Legal strict safe s cwd e.2

/-- A stronger, decidable condition: if `safe`, no directory is removed. -/
def checked (safe : Bool) (s : St) (e : Pid × Call) : Bool :=
  (s.held (.cwd e.1)).all fun cwd =>
    match e.2 with
    | .open_ path _ _ | .mkdir path | .mknod path _ _ => (s.adds cwd path).all fun dp =>
      0 < (s.inode dp).nlink ∧ (s.inode dp).nlink ≠ 32767
    | .link old new =>
      ((s.lookup cwd old false).all fun r => (s.inode r.1).nlink ≠ 32767) &&
        (s.adds cwd new).all fun dp => 0 < (s.inode dp).nlink
    | .unlink path => !safe || (s.removes cwd path).isNone
    | .chdir _ | .close _ | .exit => true

theorem mayCreate_of_checked (h : (s.adds cwd path).all (fun dp =>
      0 < (s.inode dp).nlink ∧ (s.inode dp).nlink ≠ 32767) = true) (dp : Nat)
    (ha : s.adds cwd path = some dp) : MayCreate strict type (s.inode dp) := by
  rw [ha] at h
  have hdp := of_decide_eq_true h
  exact ⟨fun _ => hdp, fun _ => hdp.1⟩

theorem legal_of_checked {e : Pid × Call} (h : checked safe s e = true) :
    legal strict safe s e := by
  obtain ⟨p, a⟩ := e
  intro cwd hc
  rw [checked, hc] at h
  cases a with
  | open_ path omode filealloc => exact fun _ => mayCreate_of_checked h
  | mkdir path => exact mayCreate_of_checked h
  | mknod path major minor => exact mayCreate_of_checked h
  | link old new =>
    intro i name hl _
    obtain ⟨h₁, h₂⟩ := Bool.and_eq_true_iff.1 h
    rw [hl] at h₁
    refine ⟨of_decide_eq_true h₁, fun _ dp ha => ?_⟩
    rw [ha] at h₂
    exact of_decide_eq_true h₂
  | unlink path =>
    intro hs i hr
    simp [hs, hr] at h
  | chdir path => trivial
  | close fd => trivial
  | exit => trivial

theorem Inv.call {a : Call} (h : Inv strict safe s [] []) (hc : s.held (.cwd p) = some cwd)
    (hl : Legal strict safe s cwd a) (ho : Sys.call s p cwd a = .ok (s', r)) :
    Inv strict safe s' [] [] := by
  have hn := h.refs.noOrphan
  cases a with
  | open_ path omode filealloc => exact h.open hn hc hl ho
  | mkdir path => exact h.make hn hc (by decide) hl ho
  | mknod path major minor => exact h.make hn hc (by decide) hl ho
  | link old new => exact h.link hn hc hl ho
  | unlink path => exact h.unlink hn hc hl ho
  | chdir path => exact h.chdir hn hc ho
  | close fd =>
    obtain rfl : (sysClose s p fd).1 = s' := congrArg Prod.fst (Except.ok.inj ho)
    exact h.close p fd
  | exit =>
    cases ho
    exact h.exit p

theorem Inv.step {e : Pid × Call} (h : Inv strict safe s [] []) (hl : legal strict safe s e)
    (ho : Sys.step s e = .ok s') : Inv strict safe s' [] [] := by
  rw [Sys.step] at ho
  split at ho
  · next cwd hc =>
    obtain ⟨⟨s₁, r⟩, h₁, ho⟩ := bind_ok ho
    cases ho
    exact h.call hc (hl cwd hc) h₁
  · cases ho

theorem Inv.exec {es : List (Pid × Call)} (h : Inv strict safe s [] [])
    (hx : Exec Sys.step (legal strict safe) s es s') : Inv strict safe s' [] [] :=
  Exec.invariant (I := fun s => Inv strict safe s [] []) hx h fun _ _ _ hi hl ho => hi.step hl ho

end Xv6.Sys
