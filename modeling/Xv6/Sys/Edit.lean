import Xv6.Sys.Tree

namespace Xv6.Sys
open Lib Fs Function
set_option autoImplicit true

variable {f f' : Nat → Inode} {ip ip' : Inode} {de : Dirent} {dents : List Dirent} {strict : Bool}
variable {ps ps' : List Nat} {d dp i j k l m m' n p p' : Nat} {v : Int16} {x y : Nat × Nat}

theorem namedAt_of_ne (h : ip.type ≠ tDir) : namedAt ip k = 0 := by
  rw [namedAt, if_neg]
  exact fun hc => h hc.1

/-- Directories with links stay, with their "..", and no entry for another comes up. -/
theorem Tree.change (h : Tree strict ps n f) (hinum : ∀ i, (f' i).type ≠ 0 → 0 < i ∧ i < n)
    (hdots : ∀ d, (f' d).type = tDir → (f d).type = tDir ∧ Dots d (f' d).dents)
    (hlinks : ∀ i, i ≠ 0 → ∃ m, Counts m (· == i) (named f') ∧
      LinkCount strict m (ps'.count i) (f' i))
    (hnamed : ∀ x, 2 ≤ x.2 → (f' (named f' x)).type = tDir → named f' x = named f x)
    (hroot : Linked f' rootIno)
    (hup : ∀ d, Linked f' d → Linked f d ∧ ent f' d 1 = ent f d 1)
    (hparent : ∀ d, Linked f' d → Linked f (ent f d 1) → Linked f' (ent f d 1) ∧
      ∀ k, 2 ≤ k → ent f (ent f d 1) k = d → ent f' (ent f d 1) k = d)
    (hremoved : ∀ x, 2 ≤ x.2 → named f' x ≠ 0 → ¬0 < (f' x.1).nlink →
      (f' (named f' x)).type ≠ tDir ∧ strict = false) : Tree strict ps' n f' := by
  refine ⟨h.size, hinum, fun d hd => (hdots d hd).2, hlinks, ?_, hroot, ?_, ?_, ?_, hremoved⟩
  · intro x y hx hy hxy ht
    have hx' := hnamed x hx ht
    have hy' := hnamed y hy (hxy ▸ ht)
    have hd := (hdots _ ht).1
    rw [hx'] at hd hxy
    rw [hy'] at hxy
    exact h.single x y hx hy hxy hd
  · rw [(hup _ hroot).2]
    exact h.root_up
  · intro x hx he
    rw [hnamed x hx (by rw [he]; exact hroot.1)] at he
    exact h.root_top x hx he
  · intro d hd hr
    obtain ⟨hl, hu⟩ := hup d hd
    obtain ⟨hp, k, hk, he⟩ := h.parent d hl hr
    obtain ⟨hp', hent⟩ := hparent d hd hp
    rw [hu]
    exact ⟨hp', k, hk, hent k hk he⟩

theorem Tree.congr (h : Tree strict ps n f) (htype : ∀ d, (f' d).type = tDir ↔ (f d).type = tDir)
    (hdir : ∀ d, (f d).type = tDir →
      (f' d).dents = (f d).dents ∧ (0 < (f' d).nlink ↔ 0 < (f d).nlink))
    (hinum : ∀ i, (f' i).type ≠ 0 → 0 < i ∧ i < n)
    (hlinks : ∀ i m, i ≠ 0 → Counts m (· == i) (named f) →
      LinkCount strict m (ps.count i) (f i) → LinkCount strict m (ps'.count i) (f' i)) :
    Tree strict ps' n f' := by
  have hnamed : named f' = named f := by
    funext x
    rw [named, named]
    by_cases hx : (f x.1).type = tDir
    · simp only [namedAt, htype, hdir x.1 hx]
    · rw [namedAt_of_ne hx, namedAt_of_ne (fun ht => hx ((htype _).1 ht))]
  have hlinked (d : Nat) : Linked f' d ↔ Linked f d := by
    simp only [Linked, htype]
    exact and_congr_right fun hd => (hdir d hd).2
  have hent (d k : Nat) (hd : (f d).type = tDir) : ent f' d k = ent f d k := by
    rw [ent, ent, (hdir d hd).1]
  apply h.change hinum
  · intro d hd
    rw [htype] at hd
    rw [(hdir d hd).1]
    exact ⟨hd, h.dots d hd⟩
  · intro i hi
    obtain ⟨m, hm, hc⟩ := h.links i hi
    rw [hnamed]
    exact ⟨m, hm, hlinks i m hi hm hc⟩
  · intro x _ _
    rw [hnamed]
  · exact (hlinked _).2 h.root
  · intro d hd
    rw [hlinked] at hd
    exact ⟨hd, hent d 1 hd.1⟩
  · intro d _ hu
    exact ⟨(hlinked _).2 hu, fun k _ he => (hent _ k hu.1).trans he⟩
  · intro x hx hne hn
    have hd := (of_named_ne hne).1
    rw [htype] at hd
    rw [(hdir x.1 hd).2] at hn
    rw [hnamed] at hne
    rw [ne_eq, htype, hnamed]
    exact h.removed x hx hne hn

theorem LinkCount.shift (h : LinkCount strict m p ip) (ht : ip.type ≠ 0) (htype : ip'.type = ip.type)
    (he : ip'.nlink.toInt - (m' + p' : Nat) = ip.nlink.toInt - (m + p : Nat)) :
    LinkCount strict m' p' ip' := by
  refine ⟨fun h₀ => absurd (htype ▸ h₀) ht, fun _ => ?_, fun _ hs => ?_⟩
  · have hle := h.le ht
    omega
  · have heq := h.exact ht (htype ▸ hs)
    omega

theorem update_type_iff (f : Nat → Inode) (h : ip.type = tDir ↔ (f i).type = tDir) (d : Nat) :
    (update f i ip d).type = tDir ↔ (f d).type = tDir := by
  by_cases hd : d = i
  · subst hd
    rw [update_self]
    exact h
  · rw [update_of_ne hd]

theorem Tree.setFile (h : Tree strict ps n f) (hold : (f i).type ≠ tDir) (hnew : ip.type ≠ tDir)
    (hi : 0 < i ∧ i < n) (hps : ∀ j, j ≠ i → ps'.count j = ps.count j)
    (hl : ∀ m, LinkCount strict m (ps.count i) (f i) → LinkCount strict m (ps'.count i) ip) :
    Tree strict ps' n (update f i ip) := by
  apply h.congr
  · exact update_type_iff f (iff_of_false hnew hold)
  · intro d hd
    have hdi : d ≠ i := by
      rintro rfl
      exact hold hd
    rw [update_of_ne hdi]
    exact ⟨rfl, Iff.rfl⟩
  · intro j hj
    by_cases hji : j = i
    · rw [hji]
      exact hi
    · rw [update_of_ne hji] at hj
      exact h.inum j hj
  · intro j m hj _ hc
    by_cases hji : j = i
    · subst hji
      rw [update_self]
      exact hl m hc
    · rw [update_of_ne hji, hps j hji]
      exact hc

theorem count_cons_other (ps : List Nat) (h : j ≠ i) : (i :: ps).count j = ps.count j :=
  List.count_cons_of_ne (Ne.symm h)

theorem Tree.bump (h : Tree strict ps n f) (ht : (f i).type ≠ 0) (hd : (f i).type ≠ tDir)
    (ho : (f i).nlink ≠ 32767) : Tree strict (i :: ps) n
      (update f i { f i with nlink := (f i).nlink + 1 }) := by
  refine h.setFile hd ?_ (h.inum i ht) (fun j hj => count_cons_other ps hj) ?_
  · exact hd
  · intro m hc
    apply hc.shift ht
    · rfl
    · simp only [toInt_add_one ho, List.count_cons_self]
      omega

theorem Tree.unbump (h : Tree strict (i :: ps) n f) (ht : (f i).type ≠ 0)
    (hd : (f i).type ≠ tDir) : Tree strict ps n
      (update f i { f i with nlink := (f i).nlink - 1 }) := by
  refine h.setFile hd ?_ (h.inum i ht) (fun j hj => (count_cons_other ps hj).symm) ?_
  · exact hd
  · intro m hc
    rw [List.count_cons_self] at hc
    have hle := hc.le ht
    have hpos : 0 < (f i).nlink := pos_iff_toInt.2 (by omega)
    apply hc.shift ht
    · rfl
    · simp only [toInt_sub_one hpos]
      omega

theorem Tree.newFile (h : Tree strict ps n f) (ht : (f i).type = 0) (hi : 0 < i ∧ i < n)
    (ht' : ip.type ≠ 0) (hd : ip.type ≠ tDir) (hl : ip.nlink = 1) :
    Tree strict (i :: ps) n (update f i ip) := by
  have hold : (f i).type ≠ tDir := by
    rw [ht]
    decide
  apply h.setFile hold hd hi fun j hj => count_cons_other ps hj
  intro m hc
  obtain ⟨rfl, hp⟩ := hc.free ht
  rw [List.count_cons_self, hp]
  refine ⟨fun h₀ => absurd h₀ ht', fun _ => ?_, fun _ _ => ?_⟩
  · rw [hl]
    decide
  · rw [hl]
    decide

/-- Directory `dp` with entry `k` written and `v` links. -/
def putEntry (f : Nat → Inode) (dp k : Nat) (de : Dirent) (v : Int16) : Nat → Inode :=
  update f dp { f dp with nlink := v, dents := putDirent (f dp).dents k de }

theorem putEntry_self : putEntry f dp k de v dp =
    { f dp with nlink := v, dents := putDirent (f dp).dents k de } :=
  update_self ..

theorem putEntry_of_ne (h : d ≠ dp) : putEntry f dp k de v d = f d :=
  update_of_ne h ..

theorem type_putEntry (d : Nat) : (putEntry f dp k de v d).type = (f d).type := by
  rw [putEntry, proj_update Inode.type]
  rfl

theorem ent_putEntry (hlen : k ≤ (f dp).dents.length) (d l : Nat) :
    ent (putEntry f dp k de v) d l = if (d, l) = (dp, k) then de.inum else ent f d l := by
  rw [ent]
  by_cases hd : d = dp
  · subst hd
    rw [putEntry_self, entry_putDirent hlen]
    by_cases hl : l = k
    · simp [hl]
    · simp [hl, ent]
  · rw [putEntry_of_ne hd, if_neg (by simp [hd]), ent]

theorem ent_putEntry_one (hk : 2 ≤ k) (hlen : k ≤ (f dp).dents.length) (d : Nat) :
    ent (putEntry f dp k de v) d 1 = ent f d 1 := by
  rw [ent_putEntry hlen, if_neg]
  rintro ⟨⟩
  omega

theorem pos_putEntry (hl : 0 < v ↔ 0 < (f dp).nlink) (d : Nat) :
    0 < (putEntry f dp k de v d).nlink ↔ 0 < (f d).nlink := by
  by_cases hd : d = dp
  · rw [hd, putEntry_self]
    exact hl
  · rw [putEntry_of_ne hd]

theorem linked_putEntry (hl : 0 < v ↔ 0 < (f dp).nlink) : Linked (putEntry f dp k de v) d ↔ Linked f d := by
  rw [Linked, Linked, type_putEntry, pos_putEntry hl]

theorem named_putEntry (hd : (f dp).type = tDir) (hk : 2 ≤ k) (hlen : k ≤ (f dp).dents.length)
    (hl : 0 < v ↔ 0 < (f dp).nlink) :
    named (putEntry f dp k de v) = update (named f) (dp, k) de.inum := by
  funext ⟨d, l⟩
  have he : ent (putEntry f dp k de v) d l = if (d, l) = (dp, k) then de.inum else ent f d l :=
    ent_putEntry hlen d l
  rw [ent] at he
  simp only [named, namedAt, type_putEntry, pos_putEntry hl, he]
  by_cases hdl : (d, l) = (dp, k)
  · rw [if_pos hdl]
    cases hdl
    rw [update_self, if_pos ⟨hd, .inl hk⟩]
  · rw [if_neg hdl, update_of_ne hdl]
    rfl

theorem Dots.put (h : Dots d dents) (hk : 2 ≤ k) (hlen : k ≤ dents.length)
    (hname : de.inum ≠ 0 → key de.name ≠ [46] ∧ key de.name ≠ [46, 46]) :
    Dots d (putDirent dents k de) := by
  have he (l : Nat) : entry (putDirent dents k de) l = if l = k then de else entry dents l :=
    entry_putDirent hlen l
  constructor
  · rw [he, if_neg (by omega)]
    exact h.self
  · rw [he, if_neg (by omega)]
    exact h.dot
  · rw [he, if_neg (by omega)]
    exact h.up
  · rw [he, if_neg (by omega)]
    exact h.dotdot
  · intro l hl
    rw [he]
    split
    · exact hname
    · exact h.rest l hl

theorem dots_putEntry (h : ∀ d, (f d).type = tDir → Dots d (f d).dents) (hk : 2 ≤ k)
    (hlen : k ≤ (f dp).dents.length)
    (hname : de.inum ≠ 0 → key de.name ≠ [46] ∧ key de.name ≠ [46, 46]) (hd : (f d).type = tDir) :
    Dots d (putEntry f dp k de v d).dents := by
  by_cases hdp : d = dp
  · subst hdp
    rw [putEntry_self]
    exact (h d hd).put hk hlen hname
  · rw [putEntry_of_ne hdp]
    exact h d hd

theorem Tree.setEntry (h : Tree strict ps n f) (hd : (f dp).type = tDir) (hk : 2 ≤ k)
    (hlen : k ≤ (f dp).dents.length) (hold : (f (ent f dp k)).type ≠ tDir)
    (hnew : (f de.inum).type ≠ tDir)
    (hname : de.inum ≠ 0 → key de.name ≠ [46] ∧ key de.name ≠ [46, 46])
    (hrem : de.inum ≠ 0 → ¬0 < (f dp).nlink → strict = false)
    (hlinks : ∀ j, j ≠ 0 → ∃ m, Counts m (· == j) (update (named f) (dp, k) de.inum) ∧
      LinkCount strict m (ps'.count j) (f j)) :
    Tree strict ps' n (putEntry f dp k de (f dp).nlink) := by
  have hnamed : named (putEntry f dp k de (f dp).nlink) = update (named f) (dp, k) de.inum :=
    named_putEntry hd hk hlen Iff.rfl
  have hnlink (d : Nat) : (putEntry f dp k de (f dp).nlink d).nlink = (f d).nlink := by
    rw [putEntry, proj_update Inode.nlink]
    rfl
  apply h.change
  · intro i
    rw [type_putEntry]
    exact h.inum i
  · intro d hd'
    rw [type_putEntry] at hd'
    exact ⟨hd', dots_putEntry h.dots hk hlen hname hd'⟩
  · intro j hj
    obtain ⟨m, hm, hc⟩ := hlinks j hj
    rw [hnamed]
    refine ⟨m, hm, ?_⟩
    constructor
    · rw [type_putEntry]
      exact hc.free
    · rw [type_putEntry, hnlink]
      exact hc.le
    · rw [type_putEntry, hnlink]
      exact hc.exact
  · intro x _ ht
    rw [type_putEntry, hnamed] at ht
    rw [hnamed, update_of_ne]
    rintro rfl
    rw [update_self] at ht
    exact hnew ht
  · exact (linked_putEntry Iff.rfl).2 h.root
  · exact fun d hd' => ⟨(linked_putEntry Iff.rfl).1 hd', ent_putEntry_one hk hlen d⟩
  · intro d hd' hu
    refine ⟨(linked_putEntry Iff.rfl).2 hu, fun l _ he => ?_⟩
    rw [ent_putEntry hlen, if_neg]
    · exact he
    · intro hdl
      cases hdl
      rw [he] at hold
      exact hold ((linked_putEntry Iff.rfl).1 hd').1
  · intro x hx hne hn
    rw [hnamed] at hne ⊢
    rw [hnlink] at hn
    rw [type_putEntry]
    by_cases hx' : x = (dp, k)
    · subst hx'
      rw [update_self] at hne ⊢
      exact ⟨hnew, hrem hne hn⟩
    · rw [update_of_ne hx'] at hne ⊢
      exact h.removed x hx hne hn

theorem beq_self_toNat (i : Nat) : (i == i).toNat = 1 := by simp

theorem beq_ne_toNat (h : j ≠ i) : (j == i).toNat = 0 := by simp [h]

theorem Tree.counts_add (h : Tree strict ps n f) (hz : named f x = 0) (hj : j ≠ 0) (i : Nat) :
    ∃ m, Counts (m + if i = j then 1 else 0) (· == j) (update (named f) x i) ∧
      LinkCount strict m (ps.count j) (f j) := by
  obtain ⟨m, hm, hc⟩ := h.links j hj
  obtain ⟨m', hm', he⟩ := hm.update x i
  refine ⟨m, ?_, hc⟩
  rw [hz, beq_ne_toNat (Ne.symm hj)] at he
  split
  · next hij =>
    rw [hij, beq_self_toNat] at he
    rwa [← he]
  · next hij =>
    rw [beq_ne_toNat hij] at he
    rwa [← he]

theorem Tree.addEntry (h : Tree strict (i :: ps) n f) (hd : (f dp).type = tDir) (hk : 2 ≤ k)
    (hlen : k ≤ (f dp).dents.length) (hempty : ent f dp k = 0) (hi : de.inum = i)
    (ht : (f i).type ≠ 0) (htd : (f i).type ≠ tDir)
    (hname : key de.name ≠ [46] ∧ key de.name ≠ [46, 46])
    (hrem : ¬0 < (f dp).nlink → strict = false) : Tree strict ps n
      (update f dp { f dp with dents := putDirent (f dp).dents k de }) := by
  have hz : named f (dp, k) = 0 := by
    rw [named_ge hk hd]
    exact hempty
  apply h.setEntry hd hk hlen
  · rw [hempty]
    intro h₀
    have hpos := (h.inum 0 (by rw [h₀]; decide)).1
    omega
  · rw [hi]
    exact htd
  · exact fun _ => hname
  · exact fun _ => hrem
  · intro j hj
    rw [hi]
    obtain ⟨m, hm, hc⟩ := h.counts_add hz hj i
    refine ⟨_, hm, ?_⟩
    split
    · next hij =>
      subst hij
      apply hc.shift ht rfl
      rw [List.count_cons_self]
      omega
    · next hij =>
      rw [count_cons_other ps (Ne.symm hij)] at hc
      exact hc

theorem Tree.clearEntry (h : Tree strict ps n f) (hd : (f dp).type = tDir) (hk : 2 ≤ k)
    (hi : ent f dp k = i) (hi0 : i ≠ 0) (htd : (f i).type ≠ tDir) : Tree strict (i :: ps) n
      (update f dp { f dp with dents := putDirent (f dp).dents k .zero }) := by
  have hz : named f (dp, k) = i := by
    rw [named_ge hk hd]
    exact hi
  have ht := (h.of_named hi0 hz).1
  have hlt : k < (f dp).dents.length := by
    apply lt_of_inum_ne
    rw [← ent, hi]
    exact hi0
  apply h.setEntry hd hk (Nat.le_of_lt hlt)
  · rw [hi]
    exact htd
  · intro h₀
    have hpos := (h.inum 0 (by rw [show (0 : Nat) = Dirent.zero.inum from rfl, h₀]; decide)).1
    omega
  · exact fun h₀ => absurd rfl h₀
  · exact fun h₀ => absurd rfl h₀
  · intro j hj
    obtain ⟨m, hm, hc⟩ := h.links j hj
    obtain ⟨m', hm', he⟩ := hm.update (dp, k) Dirent.zero.inum
    refine ⟨m', hm', ?_⟩
    rw [hz, show Dirent.zero.inum = 0 from rfl, beq_ne_toNat (Ne.symm hj)] at he
    by_cases hij : i = j
    · subst hij
      rw [beq_self_toNat] at he
      apply hc.shift ht rfl
      rw [List.count_cons_self]
      omega
    · rw [beq_ne_toNat hij] at he
      rw [count_cons_other ps (Ne.symm hij), show m' = m by omega]
      exact hc

end Xv6.Sys
