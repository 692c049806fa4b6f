import Xv6.Sys.Edit

namespace Xv6.Sys
open Lib Fs Function
set_option autoImplicit true

variable {f f' : Nat → Inode} {ip ip' : Inode} {de : Dirent} {dents : List Dirent} {strict : Bool}
variable {ps ps' : List Nat} {d dp i j k l m m' n p : Nat} {x y : Nat × Nat}

theorem Tree.type_zero (h : Tree strict ps n f) : (f 0).type = 0 := by
  by_contra hne
  exact Nat.lt_irrefl 0 (h.inum 0 hne).1

theorem Tree.ne_zero_of_dir (h : Tree strict ps n f) (hd : (f d).type = tDir) : d ≠ 0 := by
  rintro rfl
  rw [h.type_zero] at hd
  cases hd

theorem LinkCount.freed (h : LinkCount strict m p ip) (hl : ip.nlink = 0) (ht : ip.type ≠ 0)
    (ht' : ip'.type = 0) (hle : m' ≤ m) : LinkCount strict m' p ip' := by
  have hzero := h.le ht
  rw [hl, Int16.toInt_zero] at hzero
  exact ⟨fun _ => by omega, fun h₁ => absurd ht' h₁, fun h₁ => absurd ht' h₁⟩

theorem Tree.free (h : Tree strict ps n f) (ht : (f i).type ≠ 0) (hl : (f i).nlink = 0) :
    Tree strict ps n (update f i { f i with type := 0, dents := [] }) := by
  have hpos : ¬0 < (f i).nlink := by
    rw [hl]
    decide
  have hnamed (x : Nat × Nat) :
      named (update f i { f i with type := 0, dents := [] }) x =
        if x.1 = i then 0 else named f x := by
    rw [named_update]
    split
    · exact namedAt_of_ne (by simp)
    · rfl
  generalize hf : update f i { f i with type := 0, dents := [] } = f' at hnamed ⊢
  have hself : (f' i).type = 0 := by rw [← hf, update_self]
  have hother (d : Nat) (hd : d ≠ i) : f' d = f d := by
    rw [← hf, update_of_ne hd]
  have htype (d : Nat) (hd : (f' d).type ≠ 0) : d ≠ i := by
    rintro rfl
    exact hd hself
  have hdir (d : Nat) (hd : (f' d).type = tDir) : d ≠ i := htype d (by rw [hd]; decide)
  have hlinked (d : Nat) (hd : Linked f d) : Linked f' d := by
    rw [Linked, hother d]
    · exact hd
    · rintro rfl
      exact hpos hd.2
  have hcounts (j m : Nat) (hj : j ≠ 0) (hm : Counts m (· == j) (named f)) :
      ∃ m', m' ≤ m ∧ Counts m' (· == j) (named f') ∧ ((f j).type = tDir ∨ strict = true → m' = m) := by
    have hsub : ∃ m', m' ≤ m ∧ Counts m' (· == j) (named f') := by
      apply hm.sub
      intro x hx
      rw [hnamed] at hx
      split at hx
      · simp [Ne.symm hj] at hx
      · exact hx
    obtain ⟨m', hle, hm'⟩ := hsub
    refine ⟨m', hle, hm', fun hex => hm'.unique (hm.congr fun x => ?_)⟩
    rw [hnamed]
    split
    · next hx =>
      by_cases hxj : named f x = j
      · obtain ⟨-, hx2, -⟩ := of_named_ne (f := f) (x := x) (by rw [hxj]; exact hj)
        rcases hx2 with hx2 | hx2
        · have hr := h.removed x hx2 (by rw [hxj]; exact hj) (by rwa [hx])
          rw [hxj] at hr
          rcases hex with hex | hex
          · exact absurd hex hr.1
          · cases hr.2.symm.trans hex
        · rw [hx] at hx2
          exact absurd hx2.2 hpos
      · simp [hxj, Ne.symm hj]
    · rfl
  apply h.change
  · intro j hj
    rw [hother j (htype j hj)] at hj
    exact h.inum j hj
  · intro d hd
    have he := hother d (hdir d hd)
    rw [he] at hd ⊢
    exact ⟨hd, h.dots d hd⟩
  · intro j hj
    obtain ⟨m, hm, hc⟩ := h.links j hj
    obtain ⟨m', hle, hm', hex⟩ := hcounts j m hj hm
    refine ⟨m', hm', ?_⟩
    by_cases hji : j = i
    · subst hji
      exact hc.freed hl ht hself hle
    · rw [hother j hji]
      refine ⟨fun h₀ => ?_, fun h₁ => ?_, fun h₁ hs => ?_⟩
      · have hz := hc.free h₀
        omega
      · have hle' := hc.le h₁
        omega
      · rw [hex hs]
        exact hc.exact h₁ hs
  · intro x _ hd
    rw [hnamed] at hd ⊢
    split at hd
    · by_cases hi0 : 0 = i
      · rw [hi0, hself] at hd
        cases hd
      · rw [hother 0 hi0, h.type_zero] at hd
        cases hd
    · next hxi => rw [if_neg hxi]
  · exact hlinked _ h.root
  · intro d hd
    have hdi := hdir d hd.1
    rw [Linked, hother d hdi] at hd
    exact ⟨hd, by rw [ent, hother d hdi, ent]⟩
  · intro d _ hu
    have hu' := hlinked _ hu
    exact ⟨hu', fun k _ he => by rw [ent, hother _ (hdir _ hu'.1)]; exact he⟩
  · intro x hx hne hn
    rw [hnamed] at hne ⊢
    split at hne
    · exact absurd rfl hne
    · next hxi =>
      rw [if_neg hxi]
      rw [hother _ hxi] at hn
      obtain ⟨h₁, h₂⟩ := h.removed x hx hne hn
      refine ⟨fun hd => ?_, h₂⟩
      rw [hother _ (hdir _ hd)] at hd
      exact h₁ hd

/-- `create` makes a directory: an inode with its dots, an entry and a link for "..". -/
theorem Tree.mkdir (h : Tree strict ps n f) (hi : (f i).type = 0) (hin : 0 < i ∧ i < n)
    (hdp : Linked f dp) (ho : (f dp).nlink ≠ 32767) (hk : 2 ≤ k)
    (hlen : k ≤ (f dp).dents.length) (hempty : ent f dp k = 0) (hde : de.inum = i)
    (hname : key de.name ≠ [46] ∧ key de.name ≠ [46, 46]) (hd : ip.type = tDir)
    (hl : ip.nlink = 1) (hdots : Dots i ip.dents) (hup : (entry ip.dents 1).inum = dp)
    (hrest : ∀ l, 2 ≤ l → (entry ip.dents l).inum = 0) :
    Tree strict ps n (update (update f i ip) dp
      { f dp with nlink := (f dp).nlink + 1, dents := putDirent (f dp).dents k de }) := by
  have hidp : i ≠ dp := by
    rintro rfl
    cases hi.symm.trans hdp.1
  have hpos : 0 < (f dp).nlink + 1 := by
    have hlt := pos_iff_toInt.1 hdp.2
    rw [pos_iff_toInt, toInt_add_one ho]
    omega
  have hi0 : i ≠ 0 := by omega
  have hself (x : Nat × Nat) := h.named_ne_free hi0 hi x
  generalize hg : update f i ip = g
  have hgi : g i = ip := by rw [← hg, update_self]
  have hother (d : Nat) (hdi : d ≠ i) : g d = f d := by rw [← hg, update_of_ne hdi]
  have hgdp := hother dp (Ne.symm hidp)
  rw [show update g dp { f dp with
    nlink := (f dp).nlink + 1, dents := putDirent (f dp).dents k de } =
      putEntry g dp k de ((f dp).nlink + 1) by rw [putEntry, hgdp]]
  have hgpos : 0 < (f dp).nlink + 1 ↔ 0 < (g dp).nlink := by
    rw [hgdp]
    exact iff_of_true hpos hdp.2
  have hglen : k ≤ (g dp).dents.length := by rwa [hgdp]
  have hgd : (g dp).type = tDir := by
    rw [hgdp]
    exact hdp.1
  have hent (d l : Nat) (hdi : d ≠ i) :
      ent (putEntry g dp k de ((f dp).nlink + 1)) d l = if (d, l) = (dp, k) then i else ent f d l := by
    rw [ent_putEntry hglen, hde, ent, hother d hdi, ent]
  have hlinked (d : Nat) (hdi : d ≠ i) :
      Linked (putEntry g dp k de ((f dp).nlink + 1)) d ↔ Linked f d := by
    rw [linked_putEntry hgpos, Linked, hother d hdi, Linked]
  have hnamed : named (putEntry g dp k de ((f dp).nlink + 1)) =
      update (update (named f) (dp, k) i) (i, 1) dp := by
    rw [named_putEntry hgd hk hglen hgpos, hde, update_comm (by simp [Ne.symm hidp])]
    congr 1
    funext x
    obtain ⟨d, l⟩ := x
    rw [← hg, named_update]
    by_cases hdi : d = i
    · subst hdi
      rw [if_pos rfl, namedAt]
      by_cases hl1 : l = 1
      · subst hl1
        rw [update_self, if_pos ⟨hd, .inr ⟨rfl, by rw [hl]; decide⟩⟩, hup]
      · rw [update_of_ne (by simp [hl1]), named,
          namedAt_of_ne (show (f d).type ≠ tDir by rw [hi]; decide)]
        split
        · exact hrest l (by omega)
        · rfl
    · rw [if_neg hdi, update_of_ne (by simp [hdi])]
  have hge (x : Nat × Nat) (hx : 2 ≤ x.2) : named (putEntry g dp k de ((f dp).nlink + 1)) x =
      if x = (dp, k) then i else named f x := by
    have hx1 : x ≠ (i, 1) := by
      rintro rfl
      omega
    rw [hnamed, update_of_ne hx1]
    split
    · next hxe => rw [hxe, update_self]
    · next hxe => rw [update_of_ne hxe]
  have hroot : rootIno ≠ i := by
    intro hr
    rw [← hr] at hi
    cases hi.symm.trans h.root.1
  constructor
  · exact h.size
  · intro j hj
    rw [type_putEntry] at hj
    by_cases hji : j = i
    · rw [hji]
      exact hin
    · rw [hother j hji] at hj
      exact h.inum j hj
  · intro d hd'
    rw [type_putEntry] at hd'
    refine dots_putEntry (fun e he => ?_) hk hglen (fun _ => hname) hd'
    by_cases hei : e = i
    · rw [hei, hgi]
      exact hdots
    · rw [hother e hei] at he ⊢
      exact h.dots e he
  · intro j hj
    have hz : named f (dp, k) = 0 := by
      rw [named_ge hk hdp.1]
      exact hempty
    obtain ⟨m, hm, hc⟩ := h.counts_add hz hj i
    obtain ⟨m', hm', he⟩ := hm.update (i, 1) dp
    rw [hnamed]
    refine ⟨m', hm', ?_⟩
    have hz' : update (named f) (dp, k) i (i, 1) = 0 := by
      rw [update_of_ne (by simp [hidp]), named]
      exact namedAt_of_ne (by rw [hi]; decide)
    rw [hz', beq_ne_toNat (Ne.symm hj)] at he
    by_cases hij : i = j
    · subst hij
      rw [if_pos rfl, beq_ne_toNat (Ne.symm hidp)] at he
      obtain ⟨rfl, hp⟩ := hc.free hi
      rw [putEntry_of_ne hidp, hgi, hp, show m' = 1 by omega]
      refine ⟨fun h₀ => ?_, fun _ => ?_, fun _ _ => ?_⟩
      · rw [hd] at h₀
        cases h₀
      · rw [hl]
        decide
      · rw [hl]
        decide
    · rw [if_neg hij] at he
      by_cases hdj : dp = j
      · subst hdj
        rw [beq_self_toNat] at he
        rw [putEntry_self, hgdp]
        apply hc.shift (by rw [hdp.1]; decide)
        · rfl
        · simp only [toInt_add_one ho]
          omega
      · rw [beq_ne_toNat hdj] at he
        rw [putEntry_of_ne (Ne.symm hdj), hother j (Ne.symm hij), show m' = m by omega]
        exact hc
  · intro x y hx hy hxy ht
    rw [hge x hx] at hxy ht
    rw [hge y hy] at hxy
    by_cases hxe : x = (dp, k)
    · rw [if_pos hxe] at hxy
      by_cases hye : y = (dp, k)
      · rw [hxe, hye]
      · rw [if_neg hye] at hxy
        exact absurd hxy.symm (hself y)
    · rw [if_neg hxe] at hxy ht
      by_cases hye : y = (dp, k)
      · rw [if_pos hye] at hxy
        exact absurd hxy (hself x)
      · rw [if_neg hye] at hxy
        rw [type_putEntry, hother _ (hself x)] at ht
        exact h.single x y hx hy hxy ht
  · exact (hlinked _ hroot).2 h.root
  · rw [hent _ _ hroot, if_neg]
    · exact h.root_up
    · rintro ⟨⟩
      omega
  · intro x hx
    rw [hge x hx]
    split
    · exact Ne.symm hroot
    · exact h.root_top x hx
  · intro d hd' hr
    rw [ent_putEntry_one hk hglen]
    by_cases hdi : d = i
    · rw [hdi, ent, hgi, hup]
      exact ⟨(hlinked dp (Ne.symm hidp)).2 hdp, k, hk, by rw [hent _ _ (Ne.symm hidp), if_pos rfl]⟩
    · rw [hlinked d hdi] at hd'
      obtain ⟨hu, l, hl', he⟩ := h.parent d hd' hr
      have hui : ent f d 1 ≠ i := by
        intro hu'
        rw [hu'] at hu
        cases hi.symm.trans hu.1
      rw [ent, hother d hdi, ← ent]
      refine ⟨(hlinked _ hui).2 hu, l, hl', ?_⟩
      rw [hent _ _ hui, if_neg]
      · exact he
      · intro hdl
        obtain ⟨h₁, rfl⟩ := Prod.mk.inj hdl
        rw [h₁, hempty] at he
        exact h.ne_zero_of_dir hd'.1 he.symm
  · intro x hx hne hn
    rw [pos_putEntry hgpos] at hn
    rw [hge x hx] at hne ⊢
    by_cases hxe : x = (dp, k)
    · rw [hxe, hgdp] at hn
      exact absurd hdp.2 hn
    · rw [if_neg hxe] at hne ⊢
      have hxi : x.1 ≠ i := by
        intro hxi
        apply hne
        rw [named, hxi]
        exact namedAt_of_ne (by rw [hi]; decide)
      rw [hother _ hxi] at hn
      rw [type_putEntry, hother _ (hself x)]
      exact h.removed x hx hne hn

theorem Tree.of_empty (h : Tree strict ps n f) (hd : (f dp).type = tDir) (hk : 2 ≤ k)
    (hi : ent f dp k = i) (hti : (f i).type = tDir) (hempty : ∀ l, 2 ≤ l → ent f i l = 0)
    (hps : ps.count i = 0) :
    Linked f dp ∧ (f i).nlink.toInt = 1 ∧ ent f i 1 = dp ∧ i ≠ dp ∧ i ≠ rootIno := by
  have hi0 := h.ne_zero_of_dir hti
  have hz : named f (dp, k) = i := by
    rw [named_ge hk hd]
    exact hi
  have hpos := (h.of_named hi0 hz).2
  have hdp : Linked f dp := by
    refine ⟨hd, ?_⟩
    by_contra hn
    have hr := h.removed (dp, k) hk (by rw [hz]; exact hi0) hn
    rw [hz] at hr
    exact hr.1 hti
  have hidp : i ≠ dp := by
    rintro rfl
    rw [hempty k hk] at hi
    exact hi0 hi.symm
  have hroot : i ≠ rootIno := by
    rw [← hz]
    exact h.root_top (dp, k) hk
  obtain ⟨hu, l, hl, he⟩ := h.parent i ⟨hti, hpos⟩ hroot
  have hup : ent f i 1 = dp := by
    have hzl : named f (ent f i 1, l) = i := by
      rw [named_ge hl hu.1]
      exact he
    have heq := h.single (ent f i 1, l) (dp, k) hl hk (hzl.trans hz.symm) (by rw [hzl]; exact hti)
    exact (Prod.mk.inj heq).1
  refine ⟨hdp, ?_, hup, hidp, hroot⟩
  obtain ⟨m, hm, hc⟩ := h.links i hi0
  have hone : m ≤ 1 := by
    apply hm.le_one
    have huniq (x : Nat × Nat) (hx : named f x = i) : x = (dp, k) := by
      obtain ⟨htx, hx2, hxe⟩ := of_named_ne (f := f) (x := x) (by rw [hx]; exact hi0)
      rcases hx2 with hx2 | hx2
      · exact h.single x (dp, k) hx2 hk (hx.trans hz.symm) (by rw [hx]; exact hti)
      · rw [hx2.1, hx] at hxe
        by_cases hxr : x.1 = rootIno
        · rw [hxr, h.root_up] at hxe
          exact absurd hxe hroot
        · obtain ⟨-, l', hl', he'⟩ := h.parent x.1 ⟨htx, hx2.2⟩ hxr
          rw [← hxe, hempty l' hl'] at he'
          exact absurd he'.symm (h.ne_zero_of_dir htx)
    intro x y hx hy
    rw [huniq x (by simpa using hx), huniq y (by simpa using hy)]
  have hmpos : 0 < m := hm.pos (p := (dp, k)) (by simp [hz])
  have hex := hc.exact (by rw [hti]; decide) (.inl hti)
  rw [hps] at hex
  omega

/-- `sys_unlink` removes an empty directory: its entry, its link, and that of its "..". -/
theorem Tree.rmdir (h : Tree strict ps n f) (hd : (f dp).type = tDir) (hk : 2 ≤ k)
    (hi : ent f dp k = i) (hti : (f i).type = tDir) (hempty : ∀ l, 2 ≤ l → ent f i l = 0)
    (hps : ps.count i = 0) :
    Tree strict ps n (update (update f dp
      { f dp with nlink := (f dp).nlink - 1, dents := putDirent (f dp).dents k .zero })
      i { f i with nlink := (f i).nlink - 1 }) ∧ 0 < (f dp).nlink - 1 := by
  obtain ⟨hdp, hone, hup, hidp, hroot⟩ := h.of_empty hd hk hi hti hempty hps
  have hi0 := h.ne_zero_of_dir hti
  have hz : named f (dp, k) = i := by
    rw [named_ge hk hd]
    exact hi
  have hipos : 0 < (f i).nlink := (h.of_named hi0 hz).2
  have hizero : ¬0 < (f i).nlink - 1 := by
    rw [pos_iff_toInt, toInt_sub_one hipos]
    omega
  have hlen : k ≤ (f dp).dents.length := by
    apply Nat.le_of_lt
    apply lt_of_inum_ne
    rw [← ent, hi]
    exact hi0
  have hupi : named f (i, 1) = dp := by
    rw [named_up ⟨hti, hipos⟩]
    exact hup
  have hdp0 := h.ne_zero_of_dir hd
  have hcount (j : Nat) (hj : j ≠ 0) : ∃ m, Counts m (· == j)
      (update (update (named f) (dp, k) 0) (i, 1) 0) ∧
      ∃ m₀, LinkCount strict m₀ (ps.count j) (f j) ∧
        m + (i == j).toNat + (dp == j).toNat = m₀ := by
    obtain ⟨m₀, hm₀, hc⟩ := h.links j hj
    obtain ⟨m₁, hm₁, he₁⟩ := hm₀.update (dp, k) 0
    obtain ⟨m₂, hm₂, he₂⟩ := hm₁.update (i, 1) 0
    refine ⟨m₂, hm₂, m₀, hc, ?_⟩
    rw [hz, beq_ne_toNat (Ne.symm hj)] at he₁
    rw [update_of_ne (by simp [hidp]), hupi, beq_ne_toNat (Ne.symm hj)] at he₂
    omega
  have hdppos : 0 < (f dp).nlink - 1 := by
    obtain ⟨m, hm, m₀, hc, he⟩ := hcount dp hdp0
    rw [beq_ne_toNat hidp, beq_self_toNat] at he
    have hex := hc.exact (by rw [hd]; decide) (.inl hd)
    have hmpos : 0 < m := by
      by_cases hr : dp = rootIno
      · apply hm.pos (p := (dp, 1))
        rw [update_of_ne (by simp [Ne.symm hidp]),
          update_of_ne (by simp; omega), named_up hdp, hr, h.root_up]
        rfl
      · obtain ⟨hu, l, hl, he'⟩ := h.parent dp hdp hr
        apply hm.pos (p := (ent f dp 1, l))
        have hne : (ent f dp 1, l) ≠ (dp, k) := by
          intro heq
          obtain ⟨h₁, rfl⟩ := Prod.mk.inj heq
          rw [h₁, hi] at he'
          exact hidp he'
        rw [update_of_ne (by simp; omega), update_of_ne hne,
          named_ge hl hu.1]
        simp only
        rw [he']
        simp
    rw [pos_iff_toInt, toInt_sub_one hdp.2]
    omega
  refine ⟨?_, hdppos⟩
  have hl : 0 < (f dp).nlink - 1 ↔ 0 < (f dp).nlink := iff_of_true hdppos hdp.2
  have hgi : putEntry f dp k .zero ((f dp).nlink - 1) i = f i := putEntry_of_ne hidp
  show Tree strict ps n (update (putEntry f dp k .zero ((f dp).nlink - 1)) i
    { f i with nlink := (f i).nlink - 1 })
  have hnamed : named (update (putEntry f dp k .zero ((f dp).nlink - 1)) i
      { f i with nlink := (f i).nlink - 1 }) =
        update (update (named f) (dp, k) 0) (i, 1) 0 := by
    funext x
    obtain ⟨d, l⟩ := x
    rw [named_update]
    by_cases hdi : d = i
    · subst hdi
      simp only [if_pos, namedAt, hizero, and_false, or_false]
      by_cases hl1 : l = 1
      · rw [hl1, update_self, if_neg]
        omega
      · rw [update_of_ne (by simp [hl1]), update_of_ne (by simp [hidp])]
        simp only [named, namedAt, hl1, false_and, or_false]
    · rw [if_neg hdi, update_of_ne (by simp [hdi]), named_putEntry hd hk hlen hl]
      rfl
  have hent (d l : Nat) : ent (update (putEntry f dp k .zero ((f dp).nlink - 1)) i
      { f i with nlink := (f i).nlink - 1 }) d l = if (d, l) = (dp, k) then 0 else ent f d l := by
    rw [ent, proj_update Inode.dents, ← ent, ent_putEntry hlen]
    · rfl
    · rw [hgi]
  have htype (d : Nat) : (update (putEntry f dp k .zero ((f dp).nlink - 1)) i
      { f i with nlink := (f i).nlink - 1 } d).type = (f d).type := by
    rw [proj_update Inode.type, type_putEntry]
    rw [hgi]
  generalize hf : update (putEntry f dp k .zero ((f dp).nlink - 1)) i
    { f i with nlink := (f i).nlink - 1 } = f' at hnamed hent htype ⊢
  have hfi : f' i = { f i with nlink := (f i).nlink - 1 } := by
    rw [← hf, update_self]
  have hother (d : Nat) (hdi : d ≠ i) : f' d = putEntry f dp k .zero ((f dp).nlink - 1) d := by
    rw [← hf, update_of_ne hdi]
  have hlinked (d : Nat) : Linked f' d ↔ d ≠ i ∧ Linked f d := by
    by_cases hdi : d = i
    · subst hdi
      refine iff_of_false (fun hc => ?_) fun hc => hc.1 rfl
      rw [Linked, hfi] at hc
      exact hizero hc.2
    · rw [Linked, hother d hdi, ← Linked, linked_putEntry hl]
      exact (and_iff_right hdi).symm
  have hge (x : Nat × Nat) (hx : 2 ≤ x.2) : named f' x = if x = (dp, k) then 0 else named f x := by
    have hx1 : x ≠ (i, 1) := by
      rintro rfl
      omega
    rw [hnamed, update_of_ne hx1]
    split
    · next hxe => rw [hxe, update_self]
    · next hxe => rw [update_of_ne hxe]
  apply h.change
  · intro j hj
    rw [htype] at hj
    exact h.inum j hj
  · intro d hd'
    rw [htype] at hd'
    refine ⟨hd', ?_⟩
    by_cases hdi : d = i
    · rw [hdi, hfi]
      exact h.dots i hti
    · rw [hother d hdi]
      exact dots_putEntry h.dots hk hlen (fun h₀ => absurd rfl h₀) hd'
  · intro j hj
    obtain ⟨m, hm, m₀, hc, he⟩ := hcount j hj
    rw [hnamed]
    refine ⟨m, hm, ?_⟩
    by_cases hji : j = i
    · subst hji
      rw [beq_self_toNat, beq_ne_toNat (Ne.symm hidp)] at he
      rw [hfi]
      apply hc.shift (by rw [hti]; decide)
      · rfl
      · simp only [toInt_sub_one hipos]
        omega
    · rw [beq_ne_toNat (Ne.symm hji)] at he
      rw [hother j hji]
      by_cases hjd : j = dp
      · subst hjd
        rw [beq_self_toNat] at he
        rw [putEntry_self]
        apply hc.shift (by rw [hd]; decide)
        · rfl
        · simp only [toInt_sub_one hdp.2]
          omega
      · rw [beq_ne_toNat (Ne.symm hjd)] at he
        rw [putEntry_of_ne hjd, show m = m₀ by omega]
        exact hc
  · intro x hx ht
    rw [hge x hx] at ht ⊢
    split at ht
    · rw [htype, h.type_zero] at ht
      cases ht
    · next hxe => rw [if_neg hxe]
  · exact (hlinked _).2 ⟨Ne.symm hroot, h.root⟩
  · intro d hd'
    refine ⟨((hlinked d).1 hd').2, ?_⟩
    rw [hent, if_neg]
    rintro ⟨⟩
    omega
  · intro d hd' hu
    obtain ⟨hdi, hd'⟩ := (hlinked d).1 hd'
    have hui : ent f d 1 ≠ i := by
      intro hu'
      by_cases hr : d = rootIno
      · rw [hr, h.root_up] at hu'
        exact hroot hu'.symm
      · obtain ⟨-, l, hl, he⟩ := h.parent d hd' hr
        rw [hu', hempty l hl] at he
        exact h.ne_zero_of_dir hd'.1 he.symm
    refine ⟨(hlinked _).2 ⟨hui, hu⟩, fun l _ he => ?_⟩
    rw [hent, if_neg]
    · exact he
    · intro hdl
      obtain ⟨h₁, rfl⟩ := Prod.mk.inj hdl
      rw [h₁, hi] at he
      exact hdi he.symm
  · intro x hx hne hn
    rw [hge x hx] at hne ⊢
    split at hne
    · exact absurd rfl hne
    · next hxe =>
      rw [if_neg hxe, htype]
      have hxi : x.1 ≠ i := by
        intro hxi
        rw [named_ge hx (of_named_ne hne).1, hxi, hempty x.2 hx] at hne
        exact hne rfl
      rw [hother _ hxi, pos_putEntry hl] at hn
      exact h.removed x hx hne hn

end Xv6.Sys
