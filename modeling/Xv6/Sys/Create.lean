import Xv6.Sys.Lookup

namespace Xv6.Sys
open Lib Fs Function
set_option autoImplicit true

variable {s s' : St} {f f' : Nat → Inode} {strict safe : Bool} {r : Int} {de : Dirent}
variable {dents : List Dirent}
variable {ts ps : List Nat} {c cwd d dp i ip j k n off p type : Nat}
variable {name path : List UInt8} {major minor : Int16}

def direntFor (name : List UInt8) (inum : Nat) : Dirent := ⟨inum % 2 ^ 16, strncpy dirSiz name⟩

theorem dirlink_ok (h : dirlink s dp name i = .ok (s', r)) : (s.inode dp).type = tDir ∧
    ((∃ off j, find (s.inode dp).dents name = some (off, j) ∧ s' = iput (iget s j) j ∧ r = -1) ∨
      find (s.inode dp).dents name = none ∧ r = 0 ∧
        s' = s.setDirent dp (emptySlot (s.inode dp).dents) (direntFor name i)) := by
  rw [dirlink] at h
  obtain ⟨⟨s₁, q⟩, hd, h⟩ := bind_ok h
  rw [dirlookup] at hd
  obtain ⟨ht, hd⟩ := unless_ok hd
  refine ⟨not_not.1 ht, ?_⟩
  split at hd
  · next off j hf =>
    cases hd
    cases h
    exact .inl ⟨off, j, hf, rfl, rfl⟩
  · next hf =>
    cases hd
    simp only at h
    split at h
    · cases h
    · cases h
      exact .inr ⟨hf, rfl, rfl⟩

theorem ilock_ok (h : ilock s i = .ok s') :
    s' = { s with valid := update s.valid i true } := by
  rw [ilock] at h
  split at h
  · next hv =>
    cases h
    rw [← hv, update_eq_self]
  · split at h
    · cases h
    · cases h
      rfl

theorem ialloc_ok (h : ialloc s type = .ok (s', i)) : (s.inode i).type = 0 ∧ 0 < i ∧
    i < s.ninodes ∧ s' = iget (s.setInode i ⟨type, 0, 0, 0, []⟩) i := by
  rw [ialloc] at h
  split at h
  · next k hk =>
    cases h
    have hmem := List.mem_of_find?_eq_some hk
    have hpos : 0 < i := by
      obtain ⟨l, hl, he⟩ := List.mem_iff_getElem.1 hmem
      rw [List.getElem_drop, List.getElem_range] at he
      omega
    exact ⟨by simpa using List.find?_some hk, hpos,
      List.mem_range.1 (List.mem_of_mem_drop hmem), rfl⟩
  · cases h

def dotEntries (dp i : Nat) : List Dirent := [direntFor [46] i, direntFor [46, 46] dp]

theorem find_dot (i : Nat) : find [direntFor [46] i] [46, 46] = none := by
  have hn : namecmp [46, 46] (strncpy dirSiz [46]) ≠ 0 := by decide
  simp [find, direntFor, hn]

theorem emptySlot_dot (h : i % 2 ^ 16 ≠ 0) : emptySlot [direntFor [46] i] = 1 := by
  simp only [emptySlot, direntFor, List.findIdx_cons, List.findIdx_nil, h, decide_false]
  rfl

theorem makeDots_ok (h : makeDots s dp i = .ok s') (hne : i ≠ dp) (hd : (s.inode i).dents = [])
    (hi : i % 2 ^ 16 ≠ 0) : s' = { s with
      inode := update (update s.inode dp
        { s.inode dp with nlink := (s.inode dp).nlink + 1 })
        i { s.inode i with dents := dotEntries dp i } } := by
  rw [makeDots] at h
  obtain ⟨⟨s₁, r₁⟩, h₁, h⟩ := bind_ok h
  have hi₀ : (s.setNlink dp ((s.inode dp).nlink + 1)).inode i = s.inode i :=
    setNlink_of_ne s _ hne
  obtain ⟨-, ⟨off, j, hf, -, -⟩ | ⟨-, rfl, rfl⟩⟩ := dirlink_ok h₁
  · rw [hi₀, hd] at hf
    cases hf
  · simp only [Int.lt_irrefl, ↓reduceIte] at h
    obtain ⟨⟨s₂, r₂⟩, h₂, h⟩ := bind_ok h
    obtain ⟨-, ⟨off, j, hf, -, -⟩ | ⟨-, rfl, rfl⟩⟩ := dirlink_ok h₂
    · simp only [St.setDirent, St.setNlink, St.setInode, update_self, update_of_ne hne, hd] at hf
      rw [show putDirent [] (emptySlot []) (direntFor [46] i) = [direntFor [46] i] from rfl,
        find_dot] at hf
      cases hf
    · simp only [Int.lt_irrefl, ↓reduceIte, Except.ok.injEq] at h
      rw [← h]
      simp only [St.setDirent, St.setNlink, St.setInode, update_self, update_of_ne hne, hd,
        update_idem]
      rw [show putDirent [] (emptySlot []) (direntFor [46] i) = [direntFor [46] i] from rfl,
        emptySlot_dot hi]
      rfl

theorem Refs.fresh (h : Refs safe s ts) (hi : (f' i).type ≠ 0)
    (ht : ∀ j, (s.inode j).type ≠ 0 → (f' j).type ≠ 0)
    (hd : ∀ j, (s.inode j).type = tDir → (f' j).type = tDir)
    (ho : ∀ j, (f' j).type ≠ 0 → (f' j).nlink = 0 →
      (s.inode j).type ≠ 0 ∧ (s.inode j).nlink = 0)
    (hu : safe = true → ∀ p c, s.held (.cwd p) = some c → Linked f' (ent f' c 1)) :
    Refs safe { Sys.iget s i with
      inode := f', valid := update (Sys.iget s i).valid i true } (i :: ts) := by
  have he := (h.iget i).edit ht hd (fun j h₁ h₂ => .inl (ho j h₁ h₂)) hu
  refine ⟨he.count, ?_, he.held, he.cwd, ?_, he.above⟩
  · intro j hj hv
    by_cases hji : j = i
    · rw [hji]
      exact hi
    · simp only [update_of_ne hji] at hv
      exact he.valid j hj hv
  · intro j h₁ h₂
    obtain ⟨hv, hor⟩ := he.orphan j h₁ h₂
    refine ⟨?_, hor⟩
    by_cases hji : j = i
    · subst hji
      exact update_self ..
    · simp only [update_of_ne hji]
      exact hv

theorem direntFor_inum (h : i < 2 ^ 16) : (direntFor name i).inum = i :=
  Nat.mod_eq_of_lt h

theorem key_direntFor (name : List UInt8) (i : Nat) : key (direntFor name i).name = key name :=
  key_strncpy name

theorem dots_dotEntries (hi : i < 2 ^ 16) (hd : dp < 2 ^ 16) (hd0 : dp ≠ 0) :
    Dots i (dotEntries dp i) where
  self := direntFor_inum hi
  dot := by
    rw [show entry (dotEntries dp i) 0 = direntFor [46] i from rfl, key_direntFor]
    decide
  up := by
    rw [show entry (dotEntries dp i) 1 = direntFor [46, 46] dp from rfl, direntFor_inum hd]
    exact hd0
  dotdot := by
    rw [show entry (dotEntries dp i) 1 = direntFor [46, 46] dp from rfl, key_direntFor]
    decide
  rest := by
    intro k hk hne
    rw [entry_of_le (by simpa [dotEntries] using hk)] at hne
    exact absurd rfl hne

theorem Dots.fresh (h : Dots d dents) (hd : d ≠ 0) (hf : find dents name = none) :
    key name ≠ [46] ∧ key name ≠ [46, 46] ∧ 2 ≤ emptySlot dents := by
  have hself : (entry dents 0).inum ≠ 0 := by rwa [h.self]
  refine ⟨?_, ?_, ?_⟩
  · rw [← h.dot]
    exact find_none hf hself
  · rw [← h.dotdot]
    exact find_none hf h.up
  · apply le_emptySlot
    intro l hl
    obtain rfl | rfl : l = 0 ∨ l = 1 := by omega
    · exact hself
    · exact h.up

theorem Refs.create {N D : Inode} (h : Refs safe s ts) (hi : (s.inode i).type = 0)
    (hd : (s.inode dp).type = tDir) (hk : 2 ≤ k) (hlen : k ≤ (s.inode dp).dents.length)
    (hN : N.type ≠ 0) (hN₁ : N.nlink = 1) (hD : D.type = tDir)
    (hDl : D.nlink = (s.inode dp).nlink ∨ 0 < D.nlink)
    (hDd : D.dents = putDirent (s.inode dp).dents k de) :
    Refs safe { Sys.iget s i with
      inode := update (update s.inode i N) dp D,
      valid := update (Sys.iget s i).valid i true } (i :: ts) := by
  have hidp : i ≠ dp := by
    rintro rfl
    cases hi.symm.trans hd
  have hneg (x : Int16) (hx : 0 < x) : x ≠ 0 := by
    rintro rfl
    exact absurd hx (by decide)
  generalize hf : update (update s.inode i N) dp D = f'
  have hfi : f' i = N := by rw [← hf, update_of_ne hidp, update_self]
  have hfd : f' dp = D := by rw [← hf, update_self]
  have hother (j : Nat) (hji : j ≠ i) (hjd : j ≠ dp) : f' j = s.inode j := by
    rw [← hf, update_of_ne hjd, update_of_ne hji]
  have hold (j : Nat) (hj : (s.inode j).type ≠ 0) : (f' j).type = (s.inode j).type := by
    have hji : j ≠ i := by
      rintro rfl
      exact hj hi
    by_cases hjd : j = dp
    · rw [hjd, hfd, hD, hd]
    · rw [hother j hji hjd]
  apply h.fresh
  · rw [hfi]
    exact hN
  · intro j hj
    rw [hold j hj]
    exact hj
  · intro j hj
    rw [hold j (by rw [hj]; decide), hj]
  · intro j hj hl
    by_cases hji : j = i
    · rw [hji, hfi, hN₁] at hl
      cases hl
    · by_cases hjd : j = dp
      · subst hjd
        rw [hfd] at hl
        refine ⟨by rw [hd]; decide, ?_⟩
        rcases hDl with hDl | hDl
        · rw [← hDl]
          exact hl
        · exact absurd hl (hneg _ hDl)
      · rw [hother j hji hjd] at hj hl
        exact ⟨hj, hl⟩
  · intro hs p c hc
    have htc := h.cwd p c hc
    have hlk := h.above hs p c hc
    have hup : ent f' c 1 = ent s.inode c 1 := by
      by_cases hcd : c = dp
      · rw [ent, hcd, hfd, hDd, entry_putDirent hlen, if_neg (by omega), ent]
      · have hci : c ≠ i := by
          rintro rfl
          cases hi.symm.trans htc
        rw [ent, hother c hci hcd, ent]
    rw [hup]
    generalize ent s.inode c 1 = t at hlk
    refine ⟨?_, ?_⟩
    · rw [hold t (by rw [hlk.1]; decide)]
      exact hlk.1
    · have hti : t ≠ i := by
        rintro rfl
        cases hi.symm.trans hlk.1
      by_cases htd : t = dp
      · subst htd
        rw [hfd]
        rcases hDl with hDl | hDl
        · rw [hDl]
          exact hlk.2
        · exact hDl
      · rw [hother t hti htd]
        exact hlk.2

/-- Whether `create` may put an entry for an inode of this type into `dp`. -/
structure MayCreate (strict : Bool) (type : Nat) (ip : Inode) : Prop where
  dir : type = tDir → 0 < ip.nlink ∧ ip.nlink ≠ 32767
  file : strict = true → 0 < ip.nlink

/-- The state of `create` with the new inode locked and set. -/
def fresh (s : St) (i : Nat) (f : Nat → Inode) : St :=
  { iget s i with inode := f, valid := update (iget s i).valid i true }

theorem createIn_ok (h : createIn s dp name type major minor = .ok (s', q)) :
    ∃ i s₁ r, (s.inode i).type = 0 ∧ 0 < i ∧ i < s.ninodes ∧
      (if type = tDir then makeDots (fresh s i (update s.inode i
          ⟨type, major, minor, 1, []⟩)) dp i
        else .ok (fresh s i (update s.inode i ⟨type, major, minor, 1, []⟩))) = .ok s₁ ∧
      dirlink s₁ dp name i = .ok (r, 0) ∧ s' = iput r dp ∧ q = some i := by
  rw [createIn] at h
  obtain ⟨⟨s₁, i⟩, h₁, h⟩ := bind_ok h
  obtain ⟨hi, hpos, hlt, rfl⟩ := ialloc_ok h₁
  obtain ⟨s₂, h₂, h⟩ := bind_ok h
  obtain rfl := ilock_ok h₂
  obtain ⟨s₃, h₃, h⟩ := bind_ok h
  obtain ⟨⟨s₄, r⟩, h₄, h⟩ := bind_ok h
  have he : St.setInode { iget (s.setInode i ⟨type, 0, 0, 0, []⟩) i with
      valid := update (iget (s.setInode i ⟨type, 0, 0, 0, []⟩) i).valid i true } i
      ⟨type, major, minor, 1, []⟩ =
      fresh s i (update s.inode i ⟨type, major, minor, 1, []⟩) := by
    simp only [St.setInode, iget, fresh, update_idem]
    rfl
  simp only [iget, St.setInode, update_self] at h₃ he
  rw [he] at h₃
  obtain ⟨-, ⟨-, -, -, -, rfl⟩ | ⟨-, rfl, -⟩⟩ := dirlink_ok h₄
  · cases h
  · cases h
    exact ⟨i, s₃, s₄, hi, hpos, hlt, h₃, h₄, rfl, rfl⟩

theorem inode_iput_ne (s : St) (h : i ≠ j) : (iput s j).inode i = s.inode i := by
  rw [iput]
  split
  · exact update_of_ne h _ _
  · rfl

theorem Inv.createIn (h : Inv strict safe s (dp :: ts) ps)
    (hf : find (s.inode dp).dents name = none) (hd : (s.inode dp).type = tDir)
    (htype : type ≠ 0) (hmay : MayCreate strict type (s.inode dp))
    (ho : Sys.createIn s dp name type major minor = .ok (s', q)) :
    ∃ i, q = some i ∧ Inv strict safe s' (i :: ts) ps ∧ (s'.inode i).type ≠ 0 ∧
      s'.held = s.held := by
  obtain ⟨i, s₁, s₂, hi, hpos, hlt, h₁, h₂, rfl, rfl⟩ := createIn_ok ho
  have hsize := h.tree.size
  have hi16 : i < 2 ^ 16 := by omega
  have hdp := h.tree.inum dp (by rw [hd]; decide)
  have hdp16 : dp < 2 ^ 16 := by omega
  have hdp0 : dp ≠ 0 := by omega
  have hidp : i ≠ dp := by
    rintro rfl
    cases hi.symm.trans hd
  obtain ⟨hn₁, hn₂, hk⟩ := (h.tree.dots dp hd).fresh hdp0 hf
  have hlen := emptySlot_le (s.inode dp).dents
  have hempty := entry_emptySlot (s.inode dp).dents
  have hname : key (direntFor name i).name ≠ [46] ∧ key (direntFor name i).name ≠ [46, 46] := by
    rw [key_direntFor]
    exact ⟨hn₁, hn₂⟩
  refine ⟨i, rfl, ?_⟩
  have hend : ∃ N D : Inode, s₂ = fresh s i (update (update s.inode i N) dp D) ∧
      Tree strict ps s.ninodes (update (update s.inode i N) dp D) ∧
      N.type ≠ 0 ∧ N.nlink = 1 ∧ D.type = tDir ∧
      (D.nlink = (s.inode dp).nlink ∨ 0 < D.nlink) ∧
      D.dents = putDirent (s.inode dp).dents (emptySlot (s.inode dp).dents)
        (direntFor name i) := by
    obtain ⟨-, ⟨off, j, -, -, h₀⟩ | ⟨-, -, rfl⟩⟩ := dirlink_ok h₂
    · cases h₀
    · split at h₁
      · next htd =>
        obtain rfl := makeDots_ok h₁ hidp (by simp only [Sys.fresh, update_self])
          (by rw [Nat.mod_eq_of_lt hi16]; omega)
        have hup : (entry (dotEntries dp i) 1).inum = dp := direntFor_inum hdp16
        refine ⟨⟨type, major, minor, 1, dotEntries dp i⟩, _, ?_, h.tree.mkdir hi ⟨hpos, hlt⟩
          ⟨hd, (hmay.dir htd).1⟩ (hmay.dir htd).2 hk hlen hempty (direntFor_inum hi16) hname htd rfl
          (dots_dotEntries hi16 hdp16 hdp0) hup ?_, htype, rfl, hd, .inr ?_, rfl⟩
        · simp only [St.setDirent, St.setInode, Sys.fresh, update_self,
            update_of_ne (Ne.symm hidp)]
          rw [update_comm hidp, update_idem,
            update_comm (Ne.symm hidp), update_idem]
        · intro l hl
          rw [entry_of_le (by simpa [dotEntries] using hl)]
          rfl
        · have hlk := pos_iff_toInt.1 (hmay.dir htd).1
          simp only [pos_iff_toInt, toInt_add_one (hmay.dir htd).2]
          omega
      · next htd =>
        cases h₁
        have hne (N : Inode) : update s.inode i N dp = s.inode dp :=
          update_of_ne (Ne.symm hidp) _ _
        have hnew : Tree strict (i :: ps) s.ninodes
            (update s.inode i ⟨type, major, minor, 1, []⟩) :=
          h.tree.newFile hi ⟨hpos, hlt⟩ htype htd rfl
        have hadd := hnew.addEntry (k := emptySlot (s.inode dp).dents) (i := i)
          (by rw [hne]; exact hd) hk (by rw [hne]; exact hlen)
          (by rw [ent, hne]; exact hempty) (direntFor_inum hi16)
          (by rw [update_self]; exact htype) (by rw [update_self]; exact htd)
          hname
          (by
            rw [hne]
            intro hn
            cases hs : strict with
            | false => rfl
            | true => exact absurd (hmay.file hs) hn)
        rw [hne] at hadd
        refine ⟨⟨type, major, minor, 1, []⟩, _, ?_, hadd, htype, rfl, hd, .inl rfl, rfl⟩
        simp only [St.setDirent, St.setInode, Sys.fresh, hne]
  obtain ⟨N, D, rfl, htree, hN, hN₁, hD, hDl, hDd⟩ := hend
  have hrefs := h.refs.create hi hd hk hlen hN hN₁ hD hDl hDd
  have h' : Inv strict safe (Sys.fresh s i (update (update s.inode i N) dp D))
      (i :: dp :: ts) ps := ⟨htree, hrefs⟩
  refine ⟨(h'.perm (List.Perm.swap dp i ts)).iput, ?_, held_iput _ _⟩
  rw [inode_iput_ne _ hidp]
  simp only [Sys.fresh, update_of_ne hidp, update_self]
  exact hN

/-- `create` returns a reference to what it made or found. -/
theorem Inv.create (h : Inv strict safe s ts ps) (hn : NoOrphan s) (hc : 0 < s.ref cwd)
    (htype : type ≠ 0)
    (hmay : ∀ dp name, s.lookup cwd path true = some (dp, name) →
      find (s.inode dp).dents name = none → MayCreate strict type (s.inode dp))
    (ho : Sys.create s cwd path type major minor = .ok (s', q)) :
    Inv strict safe s' (q.toList ++ ts) ps ∧ s'.held = s.held ∧
      ∀ i, q = some i → (s'.inode i).type ≠ 0 := by
  rw [Sys.create] at ho
  obtain ⟨⟨s₁, r⟩, h₁, ho⟩ := bind_ok ho
  obtain ⟨hs₁, hr, hi₁⟩ := h.namex hn hc h₁
  cases r with
  | none =>
    cases ho
    exact ⟨hi₁, hs₁.held, fun i hi => by cases hi⟩
  | some r =>
    obtain ⟨dp, name⟩ := r
    have hd := walk_parent hr.symm
    obtain ⟨s₂, h₂, ho⟩ := bind_ok ho
    obtain ⟨hr₂, hs₂, -, -, -⟩ :=
      hi₁.refs.ilock (hi₁.refs.pos_of_mem List.mem_cons_self) h₂
    obtain ⟨⟨s₃, q₃⟩, h₃, ho⟩ := bind_ok ho
    obtain ⟨-, hs₃, hq, hi₃⟩ := (hi₁.same hs₂ hr₂).dirlookup h₃
    have hs := (hs₁.trans hs₂).trans hs₃
    rw [(hs₁.trans hs₂).inode] at hq
    cases q₃ with
    | none =>
      rw [← hs.inode] at hd hq
      obtain ⟨i, rfl, hi', ht', hh'⟩ := hi₃.createIn hq.symm hd htype
        (by rw [hs.inode] at hq ⊢; exact hmay dp name hr.symm hq.symm) ho
      refine ⟨hi', hh'.trans hs.held, ?_⟩
      intro j hj
      cases hj
      exact ht'
    | some q₃ =>
      obtain ⟨off, ip⟩ := q₃
      have hi₄ := hi₃.perm (List.Perm.swap dp ip ts)
      obtain ⟨hr₄, hs₄⟩ := hi₄.refs.iput_same (hn.same hs)
      have hi₅ := hi₄.same hs₄ hr₄
      obtain ⟨s₅, h₅, ho⟩ := bind_ok ho
      obtain ⟨hr₅, hs₅, -, -, ht⟩ :=
        hi₅.refs.ilock (hi₅.refs.pos_of_mem List.mem_cons_self) h₅
      have hi₆ := hi₅.same hs₅ hr₅
      have hs' := (hs.trans hs₄).trans hs₅
      split at ho
      · cases ho
        refine ⟨hi₆, hs'.held, ?_⟩
        intro j hj
        cases hj
        rw [hs₅.inode]
        exact ht
      · cases ho
        exact ⟨hi₆.iput, (held_iput _ _).trans hs'.held, fun j hj => by cases hj⟩

end Xv6.Sys
