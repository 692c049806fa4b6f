import Xv6.User.FreeList

namespace Xv6.User
open Lib Function
set_option autoImplicit true

section
variable {h : Heap} {l : List Nat} {n r : Nat}

theorem Heap.Linked.take (hl : h.Linked l) (hr : r ∈ h.base :: l) (hn : 0 < n)
    (hfit : n ≤ h.size (h.ptr r)) :
    ∃ h' q l', h.take n r (h.ptr r) = (h', q + 8) ∧ h'.Linked l' ∧
      room h'.size l' + cells q n = room h.size l ∧ h'.size q = n ∧ h.Frame h' ∧
      ∀ a, a ≠ q → a ∉ l → h'.size a = h.size a := by
  obtain ⟨l₁, l₂, rfl, rfl⟩ := exists_getLastD hr
  obtain ⟨hpath₁, hpath₂⟩ := path_append.1 hl.path
  have hhead := hpath₂.head
  cases l₂ with
  | nil =>
    simp only [List.headD_nil] at hhead
    rw [hhead, hl.empty] at hfit
    omega
  | cons p l₂ =>
    simp only [List.headD_cons] at hhead
    rw [hhead] at hfit ⊢
    have hnd := hl.spaced.nodup
    have hs := spaced_append.1 hl.spaced
    have hp : p ∈ l₁ ++ p :: l₂ := List.mem_append_right _ List.mem_cons_self
    by_cases hsize : h.size p = n
    · have hpath : Path (update h.ptr (l₁.getLastD h.base) (h.ptr p)) h.base (l₁ ++ l₂)
          h.base := by
        refine path_append.2 ⟨?_, ?_⟩
        · rw [← hpath₂.2.head]
          refine hpath₁.redirect (hnd.sublist ?_)
          exact (List.sublist_append_left _ _).cons_cons _
        · refine hpath₂.2.start (update_self ..) ?_
          intro a ha
          refine update_of_ne ?_ ..
          rintro rfl
          rw [← List.cons_append, List.nodup_append] at hnd
          exact hnd.2.2 _ (getLastD_mem l₁ h.base) _ (List.mem_cons_of_mem p ha) rfl
      refine ⟨{ h.setPtr (l₁.getLastD h.base) (h.ptr p) with freep := l₁.getLastD h.base }, p, l₁ ++ l₂,
        ?_, ⟨hpath, hl.empty, ?_, ?_⟩, ?_, hsize, ⟨rfl, rfl, rfl, rfl⟩, fun _ _ _ => rfl⟩
      · rw [Heap.take, if_pos hsize]
      · refine spaced_append.2 ⟨hs.1, hs.2.2.2.lower ?_⟩
        intro d hd
        have hgt := hs.2.2.2.gt (List.mem_of_mem_head? hd)
        have hlt := hs.2.1
        show edge h.size h.base l₁ < d
        omega
      · rw [← List.cons_append]
        exact List.mem_append_left _ (getLastD_mem l₁ h.base)
      · show room h.size (l₁ ++ l₂) + cells p n = _
        rw [room_append, room_append, room_cons, hsize]
        abel
    · have hlt : n < h.size p := Nat.lt_of_le_of_ne hfit (Ne.symm hsize)
      generalize hq : p + 8 * (h.size p - n) = q
      have hqp : q ≠ p := by omega
      have hqb : h.base ≠ q := by
        have hgt := hl.spaced.gt hp
        omega
      have hql (a : Nat) (ha : a ∈ l₁ ++ p :: l₂) : a ≠ q := by
        rintro rfl
        have hap := hl.spaced.apart hp ha (by omega)
        omega
      have hpb : h.base ≠ p := by
        have hgt := hl.spaced.gt hp
        omega
      have hpl (a : Nat) (ha : a ∈ l₁ ++ l₂) : a ≠ p := by
        rintro rfl
        rw [List.nodup_cons, List.nodup_middle, List.nodup_cons] at hnd
        exact hnd.2.1 ha
      generalize hsz : update (update h.size p (h.size p - n)) q n = size
      have hself : size p = h.size p - n := by
        rw [← hsz, update_of_ne hqp.symm, update_self]
      have hnew : size q = n := by rw [← hsz, update_self]
      have hkeep (a : Nat) (haq : a ≠ q) (hap : a ≠ p) : size a = h.size a := by
        rw [← hsz, update_of_ne haq, update_of_ne hap]
      have hkeep₁ (a : Nat) (ha : a ∈ l₁) : size a = h.size a :=
        hkeep a (hql a (List.mem_append_left _ ha)) (hpl a (List.mem_append_left _ ha))
      have hkeep₂ (a : Nat) (ha : a ∈ l₂) : size a = h.size a :=
        hkeep a (hql a (List.mem_append_right _ (List.mem_cons_of_mem p ha)))
          (hpl a (List.mem_append_right _ ha))
      have hspaced : Spaced size h.base (l₁ ++ p :: l₂) := by
        refine spaced_append.2 ⟨hs.1.congr hkeep₁, ?_, ?_, ?_⟩
        · rw [edge_congr hkeep₁]
          exact hs.2.1
        · rw [hself]
          omega
        · refine (hs.2.2.2.congr hkeep₂).lower ?_
          intro d hd
          have hgt := hs.2.2.2.gt (List.mem_of_mem_head? hd)
          rw [hself]
          omega
      refine ⟨{ h with size := size, freep := l₁.getLastD h.base }, q, l₁ ++ p :: l₂, ?_,
        ⟨hl.path, ?_, hspaced, hr⟩, ?_, hnew, ⟨rfl, rfl, rfl, rfl⟩, ?_⟩
      · rw [Heap.take, if_neg hsize]
        simp only [Heap.setSize, update_self, hq, hsz]
      · exact (hkeep _ hqb hpb).trans hl.empty
      · show room size (l₁ ++ p :: l₂) + cells q n = room h.size (l₁ ++ p :: l₂)
        have hcells := cells_add p (h.size p - n) n
        rw [Nat.sub_add_cancel hfit, hq] at hcells
        rw [room_append, room_append, room_cons, room_cons, room_congr hkeep₁, room_congr hkeep₂,
          hself, hcells]
        abel
      · intro a haq hal
        refine hkeep a haq ?_
        rintro rfl
        exact hal hp

theorem mallocLoop_fit {p : Nat} (hfit : n ≤ h.size p) :
    Heap.mallocLoop n (fuel + 1) h sbrk r p = .ok (h.take n r p) :=
  if_pos hfit

theorem mallocLoop_small {p : Nat} (hno : ¬ n ≤ h.size p) (hp : p ≠ h.freep) :
    Heap.mallocLoop n (fuel + 1) h sbrk r p = Heap.mallocLoop n fuel h sbrk p (h.ptr p) :=
  (if_neg hno).trans (if_neg hp)

theorem mallocLoop_null {p : Nat} (hno : ¬ n ≤ h.size p) (hp : p = h.freep) :
    Heap.mallocLoop n (fuel + 1) h (none :: sbrk) r p = .ok (h, 0) :=
  (if_neg hno).trans (if_pos hp)

theorem mallocLoop_core {p : Nat} (hno : ¬ n ≤ h.size p) (hp : p = h.freep)
    (hm : h.morecore n a = .ok (some h')) :
    Heap.mallocLoop n (fuel + 1) h (a :: sbrk) r p =
      Heap.mallocLoop n fuel h' sbrk h'.freep (h'.ptr h'.freep) := by
  refine ((if_neg hno).trans (if_pos hp)).trans ?_
  dsimp only
  rw [hm]
  rfl

theorem mallocLoop_skip
    (hskip : ∀ i < k, ¬ (n ≤ h.size (h.ptr (h.ptr^[i] r)) ∨ h.ptr (h.ptr^[i] r) = h.freep)) :
    Heap.mallocLoop n (k + fuel) h sbrk r (h.ptr r) =
      Heap.mallocLoop n fuel h sbrk (h.ptr^[k] r) (h.ptr (h.ptr^[k] r)) := by
  induction k generalizing r with
  | zero => rw [Nat.zero_add]; rfl
  | succ k ih =>
    have hno : ¬ n ≤ h.size (h.ptr r) ∧ ¬ h.ptr r = h.freep := not_or.1 (hskip 0 (Nat.succ_pos k))
    rw [Nat.succ_add, mallocLoop_small hno.1 hno.2]
    refine ih ?_
    intro i hi
    exact hskip (i + 1) (Nat.succ_lt_succ hi)

theorem Heap.Linked.loop_fit (hl : h.Linked l) (sbrk : List (Option Nat)) (hc : c ∈ l) (hfit : n ≤ h.size c)
    (hf : l.length < fuel) :
    ∃ r ∈ h.base :: l, n ≤ h.size (h.ptr r) ∧
      Heap.mallocLoop n fuel h sbrk h.freep (h.ptr h.freep) = .ok (h.take n r (h.ptr r)) := by
  obtain ⟨y, hy, hyc⟩ := hl.path.pred (List.mem_cons_of_mem h.base hc)
  obtain ⟨k, hk, hP, hmin⟩ := hl.path.first (P := fun r => n ≤ h.size (h.ptr r)) hl.rover hy
    (by rw [hyc]; exact hfit)
  refine ⟨_, hl.path.iterate_mem hl.rover k, hP, ?_⟩
  have hfuel : fuel = k + (fuel - k - 1 + 1) := by omega
  rw [hfuel, mallocLoop_skip, mallocLoop_fit hP]
  intro i hi
  rw [not_or]
  refine ⟨hmin i hi, ?_⟩
  have hne := iterate_ne_of_first (P := fun r => n ≤ h.size (h.ptr r)) hP hmin hi
  rw [iterate_succ_apply'] at hne
  exact hne

theorem Heap.Linked.loop_core (hl : h.Linked l) (sbrk : List (Option Nat)) (hn : 0 < n) (hno : ∀ c ∈ l, h.size c < n)
    (hf : l.length < fuel) :
    ∃ f, fuel ≤ f + 1 + l.length ∧ ∃ r ∈ h.base :: l, h.ptr r = h.freep ∧ h.size (h.ptr r) < n ∧
      Heap.mallocLoop n fuel h sbrk h.freep (h.ptr h.freep) =
        Heap.mallocLoop n (f + 1) h sbrk r (h.ptr r) := by
  obtain ⟨y, hy, hyp⟩ := hl.path.pred hl.rover
  obtain ⟨k, hk, hP, hmin⟩ := hl.path.first (P := fun r => h.ptr r = h.freep) hl.rover hy hyp
  have hsmall (r : Nat) (hr : r ∈ h.base :: l) : h.size r < n := by
    rcases List.mem_cons.1 hr with rfl | hr
    · rw [hl.empty]
      exact hn
    · exact hno r hr
  have hmem := hl.path.iterate_mem hl.rover k
  refine ⟨fuel - k - 1, by omega, _, hmem, hP, hsmall _ (hl.path.next_mem hmem), ?_⟩
  have hfuel : fuel = k + (fuel - k - 1 + 1) := by omega
  rw [hfuel, mallocLoop_skip]
  · rw [Nat.add_sub_cancel_left, Nat.add_sub_cancel]
  · intro i hi
    rw [not_or, Nat.not_le]
    exact ⟨hsmall _ (hl.path.next_mem (hl.path.iterate_mem hl.rover i)), hmin i hi⟩

end

theorem units_pos (n : Nat) : 0 < units n :=
  Nat.succ_pos _

theorem units_usable (hn : n + 8 ≤ 2 ^ 32) : n ≤ 8 * (units n - 1) := by
  rw [units, Nat.add_sub_cancel]
  omega

theorem le_coreUnits (n : Nat) : n ≤ coreUnits n ∧ 4096 ≤ coreUnits n := by
  rw [coreUnits]
  split <;> omega

theorem mem_room_of_mem {size : Nat → Nat} {l : List Nat} (ha : a ∈ l) (hc : c ∈ cells a (size a)) :
    c ∈ room size l := by
  obtain ⟨l₁, l₂, rfl⟩ := List.append_of_mem ha
  rw [room_append, room_cons, Multiset.mem_add, Multiset.mem_add]
  exact .inr (.inl hc)

theorem self_mem_cells (hn : 0 < n) : a ∈ cells a n :=
  mem_cells.2 ⟨0, hn, by omega⟩

theorem cells_apart (hd : Disjoint (cells a m) (cells b n)) (ha : a % 8 = 0) (hb : b % 8 = 0)
    (hm : 0 < m) (hn : 0 < n) : a + 8 * m ≤ b ∨ b + 8 * n ≤ a := by
  rw [Multiset.disjoint_left] at hd
  by_contra hno
  rcases Nat.le_total a b with hle | hle
  · refine hd (mem_cells.2 ⟨(b - a) / 8, by omega, ?_⟩) (self_mem_cells hn)
    omega
  · refine hd (self_mem_cells hm) (mem_cells.2 ⟨(a - b) / 8, by omega, ?_⟩)
    omega

namespace Heap

def blocks (h : Heap) : List Nat :=
  h.live.map fun x => x.1 - 8

def total (h : Heap) : Multiset Nat :=
  (h.regions.map fun r => cells r.1 r.2).sum

/-- The regions from `sbrk` are above `base`, aligned and disjoint. -/
structure Mapped (h : Heap) : Prop where
  base_pos : 0 < h.base
  base_brk : h.base + 8 ≤ h.brk
  brk_le : h.brk ≤ 2 ^ 32
  nodup : h.total.Nodup
  inside : ∀ c ∈ h.total, c % 8 = 0 ∧ h.base + 8 ≤ c ∧ c + 8 ≤ h.brk

/-- Free blocks and blocks of the program are what `sbrk` has returned. -/
structure Sound (h : Heap) (l : List Nat) : Prop where
  mapped : h.Mapped
  linked : h.Linked l
  books : room h.size l + room h.size h.blocks = h.total
  live : ∀ x ∈ h.live, 8 ≤ x.1 ∧ h.size (x.1 - 8) = units x.2 ∧ x.2 ≤ 8 * (units x.2 - 1)

end Heap

section
variable {h h' : Heap} {l : List Nat}

theorem Heap.Mapped.block (hm : h.Mapped) (hsub : ∀ c ∈ cells a n, c ∈ h.total) (hn : 0 < n) :
    a % 8 = 0 ∧ h.base + 8 ≤ a ∧ a + 8 * n ≤ h.brk := by
  have hfirst := hm.inside a (hsub a (self_mem_cells hn))
  have hlast := hm.inside (a + 8 * (n - 1)) (hsub _ (mem_cells.2 ⟨n - 1, by omega, rfl⟩))
  omega

theorem Heap.Mapped.frame (hm : h.Mapped)
    (hf : h'.base = h.base ∧ h'.brk = h.brk ∧ h'.regions = h.regions) : h'.Mapped := by
  obtain ⟨hbase, hbrk, hregions⟩ := hf
  have htotal : h'.total = h.total := by rw [Heap.total, Heap.total, hregions]
  constructor
  · rw [hbase]
    exact hm.base_pos
  · rw [hbase, hbrk]
    exact hm.base_brk
  · rw [hbrk]
    exact hm.brk_le
  · rw [htotal]
    exact hm.nodup
  · rw [htotal, hbase, hbrk]
    exact hm.inside

theorem Heap.Sound.size_pos (s : h.Sound l) (hb : b ∈ h.blocks) : 0 < h.size b := by
  obtain ⟨x, hx, rfl⟩ := List.mem_map.1 hb
  rw [(s.live x hx).2.1]
  exact units_pos _

theorem Heap.Mapped.free_block (hm : h.Mapped) (hl : h.Linked l)
    (hsub : ∀ c ∈ room h.size l, c ∈ h.total) (ha : a ∈ l) :
    a % 8 = 0 ∧ h.base + 8 ≤ a ∧ a + 8 * h.size a ≤ h.brk :=
  hm.block (fun c hc => hsub c (mem_room_of_mem ha hc)) (hl.spaced.pos ha)

theorem Heap.Mapped.length_lt (hm : h.Mapped) (hl : h.Linked l)
    (hsub : ∀ c ∈ room h.size l, c ∈ h.total) : l.length < 2 ^ 29 := by
  have hle := hl.spaced.le_edge
  have hedge := edge_getLastD h.size h.base l
  rw [hl.empty, Nat.mul_zero, Nat.add_zero] at hedge
  have hbrk := hm.brk_le
  have hbase := hm.base_pos
  rcases List.mem_cons.1 (getLastD_mem l h.base) with he | hl'
  · rw [hedge, he, hl.empty] at hle
    omega
  · have hend := (hm.free_block hl hsub hl').2.2
    omega

theorem Heap.Sound.sub (s : h.Sound l) : ∀ c ∈ room h.size l, c ∈ h.total := by
  intro c hc
  rw [← s.books]
  exact Multiset.mem_add.2 (.inl hc)

theorem Heap.Sound.disjoint (s : h.Sound l) : Disjoint (room h.size l) (room h.size h.blocks) := by
  have hnd := s.mapped.nodup
  rw [← s.books, Multiset.nodup_add] at hnd
  exact hnd.2.2

theorem Heap.Sound.not_free (s : h.Sound l) (hb : b ∈ h.blocks) : b ∉ room h.size l := by
  intro hm
  exact Multiset.disjoint_left.1 s.disjoint hm (mem_room_of_mem hb (self_mem_cells (s.size_pos hb)))

theorem Heap.Sound.not_mem (s : h.Sound l) (hb : b ∈ h.blocks) : b ∉ l := by
  intro hm
  exact s.not_free hb (mem_room_of_mem hm (self_mem_cells (s.linked.spaced.pos hm)))

theorem Heap.Sound.take (s : h.Sound l) (hr : r ∈ h.base :: l)
    (hfit : units n ≤ h.size (h.ptr r)) (hn : n ≤ 8 * (units n - 1)) :
    ∃ h' q l', h.take (units n) r (h.ptr r) = (h', q + 8) ∧
      ({ h' with live := h'.live ++ [(q + 8, n)] } : Heap).Sound l' := by
  obtain ⟨h', q, l', htake, hlinked, hroom, hq, hframe, hkeep⟩ :=
    s.linked.take hr (units_pos n) hfit
  refine ⟨h', q, l', htake, ?_⟩
  have hqfree : q ∈ room h.size l := by
    rw [← hroom]
    exact Multiset.mem_add.2 (.inr (self_mem_cells (units_pos n)))
  have hlive (b : Nat) (hb : b ∈ h.blocks) : h'.size b = h.size b := by
    refine hkeep b ?_ (s.not_mem hb)
    rintro rfl
    exact s.not_free hb hqfree
  have htotal : h'.total = h.total := by rw [Heap.total, Heap.total, hframe.regions]
  have hblocks : h'.blocks = h.blocks := by rw [Heap.blocks, Heap.blocks, hframe.live]
  refine ⟨s.mapped.frame ⟨hframe.base, hframe.brk, hframe.regions⟩,
    ⟨hlinked.path, hlinked.empty, hlinked.spaced, hlinked.rover⟩, ?_, ?_⟩
  · have hnew : ({ h' with live := h'.live ++ [(q + 8, n)] } : Heap).blocks = h.blocks ++ [q] := by
      rw [← hblocks]
      exact List.map_append
    rw [hnew]
    show room h'.size l' + room h'.size (h.blocks ++ [q]) = h'.total
    rw [htotal, ← s.books, ← hroom, room_append, room_cons, room_nil, hq, room_congr hlive]
    abel
  · intro x hx
    rcases List.mem_append.1 hx with hx | hx
    · rw [hframe.live] at hx
      obtain ⟨h8, hsize, hle⟩ := s.live x hx
      refine ⟨h8, ?_, hle⟩
      rw [← hsize]
      exact hlive _ (List.mem_map_of_mem hx)
    · obtain rfl := List.mem_singleton.1 hx
      refine ⟨Nat.le_add_left 8 q, ?_, hn⟩
      show h'.size (q + 8 - 8) = units n
      rw [Nat.add_sub_cancel, hq]

/-- `free` takes back a block not in the list, and leaves the program those in `lv`. -/
theorem Heap.Mapped.give (hm : h.Mapped) (bp : Nat) (lv : List (Nat × Nat)) (hl : h.Linked l)
    (hk : 0 < h.size bp)
    (hbooks : room h.size l + (cells bp (h.size bp) + room h.size (lv.map fun x => x.1 - 8)) = h.total)
    (hlive : ∀ x ∈ lv, 8 ≤ x.1 ∧ h.size (x.1 - 8) = units x.2 ∧ x.2 ≤ 8 * (units x.2 - 1)) :
    ∃ h' l', h.free (bp + 8) = .ok h' ∧ ({ h' with live := lv } : Heap).Sound l' ∧
      h'.live = h.live ∧ ∃ c ∈ l', h.size bp ≤ h'.size c := by
  have hsub : ∀ c ∈ room h.size l, c ∈ h.total := by
    intro c hc
    rw [← hbooks]
    exact Multiset.mem_add.2 (.inl hc)
  have hbp : bp % 8 = 0 ∧ h.base + 8 ≤ bp ∧ bp + 8 * h.size bp ≤ h.brk := by
    refine hm.block ?_ hk
    intro c hc
    rw [← hbooks]
    exact Multiset.mem_add.2 (.inr (Multiset.mem_add.2 (.inl hc)))
  have hnd := hm.nodup
  rw [← hbooks, Multiset.nodup_add, Multiset.nodup_add, Multiset.disjoint_add_right] at hnd
  obtain ⟨-, ⟨-, -, hheld⟩, hfree, hothers⟩ := hnd
  have hapart (a : Nat) (ha : a ∈ l) : a + 8 * h.size a ≤ bp ∨ bp + 8 * h.size bp ≤ a := by
    refine cells_apart ?_ (hm.free_block hl hsub ha).1 hbp.1 (hl.spaced.pos ha) hk
    rw [Multiset.disjoint_left] at hfree ⊢
    intro c hca hcb
    exact hfree (mem_room_of_mem ha hca) hcb
  have hlen : l.length < loopFuel := Nat.lt_trans (hm.length_lt hl hsub) (by decide)
  obtain ⟨h', l', hfree', hlinked, hroom, hframe, hfit, hkeep⟩ :=
    hl.free (Nat.lt_of_lt_of_le (Nat.lt_add_of_pos_right (by decide)) hbp.2.1) hk hapart hlen
  have hself (b : Nat) (hb : b ∈ lv.map fun x => x.1 - 8) :
      b ∈ room h.size (lv.map fun x => x.1 - 8) := by
    refine mem_room_of_mem hb (self_mem_cells ?_)
    obtain ⟨x, hx, rfl⟩ := List.mem_map.1 hb
    rw [(hlive x hx).2.1]
    exact units_pos _
  have hsize (b : Nat) (hb : b ∈ lv.map fun x => x.1 - 8) : h'.size b = h.size b := by
    refine hkeep b ?_ ?_
    · rintro rfl
      exact Multiset.disjoint_left.1 hheld (self_mem_cells hk) (hself _ hb)
    · intro hbl
      exact Multiset.disjoint_left.1 hothers
        (mem_room_of_mem hbl (self_mem_cells (hl.spaced.pos hbl))) (hself b hb)
  refine ⟨h', l', hfree', ⟨hm.frame ⟨hframe.base, hframe.brk, hframe.regions⟩,
    ⟨hlinked.path, hlinked.empty, hlinked.spaced, hlinked.rover⟩, ?_, ?_⟩, hframe.live, hfit⟩
  · show room h'.size l' + room h'.size (lv.map fun x => x.1 - 8) = h'.total
    rw [hroom, room_congr hsize, Heap.total, hframe.regions, ← Heap.total, ← hbooks]
    abel
  · intro x hx
    obtain ⟨h8, hx', hle⟩ := hlive x hx
    refine ⟨h8, ?_, hle⟩
    rw [← hx']
    exact hsize _ (List.mem_map_of_mem hx)

theorem cells_nodup (a n : Nat) : (cells a n).Nodup := by
  refine (Multiset.nodup_range n).map ?_
  intro i j hij
  simp only at hij
  omega

/-- The heap with a region that `sbrk` has returned. -/
def Heap.extend (h : Heap) (a nu : Nat) : Heap :=
  { h.setSize a nu with brk := a + 8 * nu, regions := h.regions ++ [(a, nu)] }

theorem Heap.total_extend (h : Heap) (a nu : Nat) : (h.extend a nu).total = h.total + cells a nu := by
  rw [Heap.total, Heap.extend, List.map_append, List.sum_append, List.map_singleton,
    List.sum_singleton]
  rfl

theorem Heap.Mapped.extend (hm : h.Mapped) (ha : a % 8 = 0) (hbrk : h.brk ≤ a)
    (hend : a + 8 * nu ≤ 2 ^ 32) : (h.extend a nu).Mapped := by
  have hbase := hm.base_brk
  refine ⟨hm.base_pos, ?_, hend, ?_, ?_⟩
  · show h.base + 8 ≤ a + 8 * nu
    omega
  · rw [Heap.total_extend, Multiset.nodup_add]
    refine ⟨hm.nodup, cells_nodup a nu, ?_⟩
    rw [Multiset.disjoint_left]
    intro c hc hca
    have hin := (hm.inside c hc).2.2
    obtain ⟨i, -, rfl⟩ := mem_cells.1 hca
    omega
  · intro c hc
    rw [Heap.total_extend, Multiset.mem_add] at hc
    show c % 8 = 0 ∧ h.base + 8 ≤ c ∧ c + 8 ≤ a + 8 * nu
    rcases hc with hc | hc
    · have hin := hm.inside c hc
      omega
    · obtain ⟨i, hi, rfl⟩ := mem_cells.1 hc
      omega

theorem Heap.Sound.morecore (s : h.Sound l) (ha : a % 8 = 0) (hbrk : h.brk ≤ a)
    (hend : a + 8 * coreUnits n ≤ 2 ^ 32) :
    ∃ h' l', h.morecore n (some a) = .ok (some h') ∧ h'.Sound l' ∧ ∃ c ∈ l', n ≤ h'.size c := by
  have hbase := s.mapped.base_brk
  have hpos : 0 < coreUnits n := by
    have hle := le_coreUnits n
    omega
  have hother (b : Nat) (hb : b < a) : (h.extend a (coreUnits n)).size b = h.size b :=
    update_of_ne (Nat.ne_of_lt hb) ..
  have hself : (h.extend a (coreUnits n)).size a = coreUnits n := update_self ..
  have hfree (b : Nat) (hb : b ∈ l) : (h.extend a (coreUnits n)).size b = h.size b := by
    refine hother b ?_
    have hin := s.mapped.free_block s.linked s.sub hb
    have hlt := s.linked.spaced.pos hb
    omega
  have hlive (b : Nat) (hb : b ∈ h.blocks) : (h.extend a (coreUnits n)).size b = h.size b := by
    refine hother b ?_
    have hmem : b ∈ h.total := by
      rw [← s.books]
      exact Multiset.mem_add.2 (.inr (mem_room_of_mem hb (self_mem_cells (s.size_pos hb))))
    have hin := s.mapped.inside b hmem
    omega
  have hlinked : (h.extend a (coreUnits n)).Linked l := by
    refine ⟨s.linked.path, ?_, s.linked.spaced.congr hfree, s.linked.rover⟩
    exact (hother h.base (by omega)).trans s.linked.empty
  obtain ⟨h', l', hok, hsound, hsame, c, hc, hfit⟩ :=
    (s.mapped.extend ha hbrk hend).give a h.live hlinked (by rw [hself]; exact hpos)
      (by
        rw [hself, room_congr hfree, Heap.total_extend, ← s.books]
        have hroom : room (h.extend a (coreUnits n)).size (h.live.map fun x => x.1 - 8) =
            room h.size h.blocks := room_congr hlive
        rw [hroom]
        abel)
      (by
        intro x hx
        obtain ⟨h8, hx', hle⟩ := s.live x hx
        exact ⟨h8, (hlive _ (List.mem_map_of_mem hx)).trans hx', hle⟩)
  have hsame' : ({ h' with live := h.live } : Heap) = h' := by
    have hl : h.live = h'.live := hsame.symm
    rw [hl]
  rw [hsame'] at hsound
  refine ⟨h', l', ?_, hsound, c, hc, ?_⟩
  · have hmore : h.morecore n (some a) = (do
        let h ← (h.extend a (coreUnits n)).free (a + 8)
        .ok (some h)) := rfl
    rw [hmore, hok]
    rfl
  · rw [hself] at hfit
    exact Nat.le_trans (le_coreUnits n).1 hfit

/-- What `malloc` returns, if it is not 0, is a new block of the program. -/
theorem Heap.Sound.mallocLoop (s : h.Sound l) (o : Option Nat) (sbrk : List (Option Nat))
    (hn : n ≤ 8 * (units n - 1))
    (hsbrk : ∀ a, o = some a → a % 8 = 0 ∧ h.brk ≤ a ∧ a + 8 * coreUnits (units n) ≤ 2 ^ 32) :
    ∃ h' p, Heap.mallocLoop (units n) loopFuel h (o :: sbrk) h.freep (h.ptr h.freep) = .ok (h', p) ∧
      ∃ l', (if p = 0 then h' else { h' with live := h'.live ++ [(p, n)] } : Heap).Sound l' := by
  have hlen := s.mapped.length_lt s.linked s.sub
  by_cases hfit : ∃ c ∈ l, units n ≤ h.size c
  · obtain ⟨c, hc, hfit⟩ := hfit
    obtain ⟨r, hr, hfit, hloop⟩ := s.linked.loop_fit (o :: sbrk) hc hfit
      (Nat.lt_trans hlen (show 2 ^ 29 < loopFuel by decide))
    obtain ⟨h', q, l', htake, hsound⟩ := s.take hr hfit hn
    exact ⟨h', q + 8, by rw [hloop, htake], l', hsound⟩
  · have hno : ∀ c ∈ l, h.size c < units n := by
      intro c hc
      by_contra hle
      exact hfit ⟨c, hc, Nat.le_of_not_lt hle⟩
    obtain ⟨f, hf, r, hr, hback, hsmall, hloop⟩ := s.linked.loop_core (o :: sbrk)
      (units_pos n) hno (Nat.lt_trans hlen (show 2 ^ 29 < loopFuel by decide))
    rw [hloop]
    cases o with
    | none => exact ⟨h, 0, mallocLoop_null (Nat.not_le.2 hsmall) hback, l, s⟩
    | some a =>
      obtain ⟨ha, hbrk, hend⟩ := hsbrk a rfl
      obtain ⟨h₁, l₁, hcore, s₁, c, hc, hfit⟩ := s.morecore ha hbrk hend
      have hlen₁ := s₁.mapped.length_lt s₁.linked s₁.sub
      have hfuel : l₁.length < f := by
        simp only [loopFuel] at hf
        omega
      obtain ⟨r₁, hr₁, hfit₁, hloop₁⟩ := s₁.linked.loop_fit sbrk hc hfit hfuel
      obtain ⟨h', q, l', htake, hsound⟩ := s₁.take hr₁ hfit₁ hn
      refine ⟨h', q + 8, ?_, l', hsound⟩
      rw [mallocLoop_core (Nat.not_le.2 hsmall) hback hcore, hloop₁, htake]

/-- Before the first `malloc` there is no memory from it; then the heap is sound. -/
def Heap.Ok (h : Heap) : Prop :=
  h.Mapped ∧ h.freep = 0 ∧ h.live = [] ∧ h.regions = [] ∨ ∃ l, h.Sound l

theorem Heap.Mapped.init (hm : h.Mapped) (hlive : h.live = []) (hregions : h.regions = []) :
    h.init.Sound [] := by
  refine ⟨hm.frame ⟨rfl, rfl, rfl⟩, ⟨?_, ?_, trivial, List.mem_cons_self⟩, ?_, ?_⟩
  · exact update_self ..
  · exact update_self ..
  · have hblocks : h.init.blocks = [] := by
      show h.live.map _ = []
      rw [hlive]
      rfl
    have htotal : h.init.total = 0 := by
      show (h.regions.map _).sum = 0
      rw [hregions]
      rfl
    rw [hblocks, htotal]
    rfl
  · intro x hx
    have hx' : x ∈ h.live := hx
    rw [hlive] at hx'
    cases hx'

theorem Heap.Sound.freep_ne (s : h.Sound l) : h.freep ≠ 0 := by
  have hpos := s.mapped.base_pos
  rcases List.mem_cons.1 s.linked.rover with he | hm
  · omega
  · have hgt := s.linked.spaced.gt hm
    omega

theorem Heap.Ok.malloc (hok : h.Ok) (hn : n ≤ 8 * (units n - 1))
    (hsbrk : ∀ a, o = some a → a % 8 = 0 ∧ h.brk ≤ a ∧ a + 8 * coreUnits (units n) ≤ 2 ^ 32) :
    ∃ h', h.step (.malloc n (o :: rest)) = .ok h' ∧ h'.Ok := by
  obtain ⟨l, s, hbrk⟩ : ∃ l, (if h.freep = 0 then h.init else h).Sound l ∧
      (if h.freep = 0 then h.init else h).brk = h.brk := by
    rcases hok with ⟨hm, hz, hlive, hregions⟩ | ⟨l, s⟩
    · rw [if_pos hz]
      exact ⟨[], hm.init hlive hregions, rfl⟩
    · rw [if_neg s.freep_ne]
      exact ⟨l, s, rfl⟩
  obtain ⟨h', p, hloop, l', s'⟩ := s.mallocLoop o rest hn (by rw [hbrk]; exact hsbrk)
  refine ⟨_, ?_, .inr ⟨l', s'⟩⟩
  rw [Heap.step, Heap.malloc, hloop]
  rfl

theorem Heap.malloc_legal (hl : h.legal (.malloc n sbrk) = true) :
    ∃ o rest, sbrk = o :: rest ∧ n ≤ 2 ^ 28 ∧ ∀ a, o = some a →
      a % 8 = 0 ∧ h.brk ≤ a ∧ a + 8 * coreUnits (units n) ≤ 2 ^ 32 := by
  cases sbrk with
  | nil =>
    rw [Heap.legal, Bool.and_false] at hl
    cases hl
  | cons o rest =>
    cases o with
    | none =>
      rw [Heap.legal, Bool.and_true] at hl
      exact ⟨none, rest, rfl, of_decide_eq_true hl, nofun⟩
    | some a =>
      rw [Heap.legal, Bool.and_eq_true] at hl
      refine ⟨some a, rest, rfl, of_decide_eq_true hl.1, ?_⟩
      rintro _ ⟨⟩
      exact of_decide_eq_true hl.2

theorem Heap.Sound.free (s : h.Sound l) (hl : h.legal (.free ap) = true) :
    ∃ h', h.step (.free ap) = .ok h' ∧ h'.Ok := by
  obtain ⟨x, hx, hap⟩ := List.any_eq_true.1 hl
  obtain ⟨y, l₁, l₂, -, hy, hlive, herase⟩ := List.exists_of_eraseP
    (p := fun x : Nat × Nat => decide (x.1 = ap)) hx hap
  obtain rfl := of_decide_eq_true hy
  have hyl : y ∈ h.live := by
    rw [hlive]
    exact List.mem_append_right _ List.mem_cons_self
  have h8 := (s.live y hyl).1
  have hblocks : h.blocks = l₁.map (fun x => x.1 - 8) ++ (y.1 - 8) :: l₂.map (fun x => x.1 - 8) := by
    rw [Heap.blocks, hlive, List.map_append, List.map_cons]
  have hbooks := s.books
  rw [hblocks, room_append, room_cons] at hbooks
  obtain ⟨h', l', hok, hsound, hsame, -⟩ := s.mapped.give (y.1 - 8) (l₁ ++ l₂) s.linked
    (s.size_pos (by rw [hblocks]; exact List.mem_append_right _ List.mem_cons_self))
    (by
      rw [List.map_append, room_append, ← hbooks]
      abel)
    (by
      intro z hz
      refine s.live z ?_
      rw [hlive]
      rcases List.mem_append.1 hz with hz | hz
      · exact List.mem_append_left _ hz
      · exact List.mem_append_right _ (List.mem_cons_of_mem y hz))
  rw [Nat.sub_add_cancel h8] at hok
  refine ⟨{ h' with live := l₁ ++ l₂ }, ?_, .inr ⟨l', hsound⟩⟩
  rw [Heap.step, hok, ok_bind, hsame, herase]

/-- What the program writes into its blocks is no header. -/
theorem Heap.Sound.write (s : h.Sound l) (hl : h.legal (.write a x y) = true) :
    ((h.setPtr a x).setSize a y).Sound l := by
  obtain ⟨z, hz, hin⟩ := List.any_eq_true.1 hl
  obtain ⟨ha, hlo, hhi⟩ := of_decide_eq_true hin
  obtain ⟨h8, hsize, -⟩ := s.live z hz
  have hb : z.1 - 8 ∈ h.blocks := List.mem_map_of_mem hz
  obtain ⟨b₁, b₂, hblocks⟩ := List.append_of_mem hb
  have hself := s.size_pos hb
  have hmem (c : Nat) (hc : c ∈ cells (z.1 - 8) (h.size (z.1 - 8))) : c ∈ room h.size h.blocks :=
    mem_room_of_mem hb hc
  have htot (c : Nat) (hc : c ∈ room h.size h.blocks) : c ∈ h.total := by
    rw [← s.books]
    exact Multiset.mem_add.2 (.inr hc)
  have hblock := s.mapped.block (fun c hc => htot c (hmem c hc)) hself
  have hcell : a ∈ cells (z.1 - 8) (h.size (z.1 - 8)) := by
    refine mem_cells.2 ⟨(a - (z.1 - 8)) / 8, ?_, ?_⟩
    · rw [hsize] at hself ⊢
      omega
    · omega
  have hbase : h.base ≠ a := by
    have hgt := (s.mapped.inside a (htot a (hmem a hcell))).2.1
    omega
  have hfree (c : Nat) (hc : c ∈ l) : c ≠ a := by
    rintro rfl
    exact Multiset.disjoint_left.1 s.disjoint
      (mem_room_of_mem hc (self_mem_cells (s.linked.spaced.pos hc))) (hmem c hcell)
  have hheld (c : Nat) (hc : c ∈ h.blocks) : c ≠ a := by
    rintro rfl
    have hnd := s.mapped.nodup
    rw [← s.books, Multiset.nodup_add, hblocks, room_append, room_cons] at hnd
    have hswap : room h.size b₁ + (cells (z.1 - 8) (h.size (z.1 - 8)) + room h.size b₂) =
        cells (z.1 - 8) (h.size (z.1 - 8)) + room h.size (b₁ ++ b₂) := by
      rw [room_append]
      abel
    rw [hswap, Multiset.nodup_add] at hnd
    have hpos := s.size_pos hc
    rw [hblocks, List.mem_append, List.mem_cons] at hc
    rcases hc with hc | hc | hc
    · exact Multiset.disjoint_left.1 hnd.2.1.2.2 hcell
        (mem_room_of_mem (List.mem_append_left _ hc) (self_mem_cells hpos))
    · omega
    · exact Multiset.disjoint_left.1 hnd.2.1.2.2 hcell
        (mem_room_of_mem (List.mem_append_right _ hc) (self_mem_cells hpos))
  have hkeep (c : Nat) (hc : c ≠ a) : ((h.setPtr a x).setSize a y).size c = h.size c :=
    update_of_ne hc ..
  refine ⟨s.mapped.frame ⟨rfl, rfl, rfl⟩, ⟨?_, ?_, ?_, s.linked.rover⟩, ?_, ?_⟩
  · refine s.linked.path.start (update_of_ne hbase ..) ?_
    intro c hc
    exact update_of_ne (hfree c hc) ..
  · exact (hkeep _ hbase).trans s.linked.empty
  · exact s.linked.spaced.congr fun c hc => hkeep c (hfree c hc)
  · rw [room_congr fun c hc => hkeep c (hfree c hc)]
    have hroom : room ((h.setPtr a x).setSize a y).size ((h.setPtr a x).setSize a y).blocks =
        room h.size h.blocks := room_congr fun c hc => hkeep c (hheld c hc)
    rw [hroom]
    exact s.books
  · intro w hw
    obtain ⟨hw8, hw', hle⟩ := s.live w hw
    exact ⟨hw8, (hkeep _ (hheld _ (List.mem_map_of_mem hw))).trans hw', hle⟩

/-- Every call returns, and leaves the heap sound. -/
theorem Heap.Ok.step (hok : h.Ok) (hl : h.legal e = true) : ∃ h', h.step e = .ok h' ∧ h'.Ok := by
  cases e with
  | malloc n sbrk =>
    obtain ⟨o, rest, rfl, hn, hsbrk⟩ := malloc_legal hl
    exact hok.malloc (units_usable (Nat.le_trans (Nat.add_le_add_right hn 8) (by decide))) hsbrk
  | free ap =>
    rcases hok with ⟨-, -, hlive, -⟩ | ⟨l, s⟩
    · rw [Heap.legal, hlive] at hl
      cases hl
    · exact s.free hl
  | write a x y =>
    rcases hok with ⟨-, -, hlive, -⟩ | ⟨l, s⟩
    · rw [Heap.legal, hlive] at hl
      cases hl
    · exact ⟨_, rfl, .inr ⟨l, s.write hl⟩⟩

end

theorem mapped_start (hbase : 0 < base) (hbrk : base + 8 ≤ brk) (hle : brk ≤ 2 ^ 32) :
    (Heap.start base brk).Mapped :=
  ⟨hbase, hbrk, hle, Multiset.nodup_zero, nofun⟩

/-- The free list is a cycle through `base` in order, free blocks and those of the program make up
what `sbrk` returned, and every call returns. -/
theorem heap_invariant (hbase : 0 < base) (hbrk : base + 8 ≤ brk) (hle : brk ≤ 2 ^ 32)
    (hrun : Exec Heap.step (fun h e => h.legal e) (Heap.start base brk) es h) :
    (h.freep = 0 ∧ h.live = [] ∧ h.regions = [] ∨
      ∃ l, Path h.ptr h.base l h.base ∧ h.freep ∈ h.base :: l ∧ h.size h.base = 0 ∧
        Spaced h.size h.base l ∧ room h.size l + room h.size h.blocks = h.total) ∧
    h.total.Nodup ∧
    (∀ x ∈ h.live, x.2 ≤ 8 * (h.size (x.1 - 8) - 1)) ∧
    ∀ e, h.legal e = true → ∃ h', h.step e = .ok h' := by
  have hok : h.Ok := by
    refine hrun.invariant (I := Heap.Ok) (.inl ⟨mapped_start hbase hbrk hle, rfl, rfl, rfl⟩) ?_
    intro h e h' hok hl hs
    obtain ⟨h'', hs', hok'⟩ := hok.step hl
    obtain rfl := Except.ok.inj (hs.symm.trans hs')
    exact hok'
  have hsteps (e : HeapEvent) (hl : h.legal e = true) : ∃ h', h.step e = .ok h' := by
    obtain ⟨h', hs, -⟩ := hok.step hl
    exact ⟨h', hs⟩
  rcases hok with ⟨hm, hz, hlive, hregions⟩ | ⟨l, s⟩
  · refine ⟨.inl ⟨hz, hlive, hregions⟩, hm.nodup, ?_, hsteps⟩
    rw [hlive]
    exact nofun
  · refine ⟨.inr ⟨l, s.linked.path, s.linked.rover, s.linked.empty, s.linked.spaced, s.books⟩,
      s.mapped.nodup, ?_, hsteps⟩
    intro x hx
    obtain ⟨-, hsize, hn⟩ := s.live x hx
    rw [hsize]
    exact hn

def twoBlocks : List HeapEvent :=
  [.malloc 100 [some 0x4000], .malloc 2000 [none], .write 0xbfa0 7 9, .free 0xbf98, .free 0xb7c0]

theorem heap_invariant_twoBlocks :
    ∃ h, runLegal Heap.step Heap.legal (Heap.start 0x1000 0x4000) twoBlocks = some h ∧
      h.live = [] ∧ h.freep = 0x4000 ∧ h.ptr 0x1000 = 0x4000 ∧ h.size 0x4000 = 4096 ∧
      h.total.Nodup := by
  have hrun := exec_of_runLegal Heap.step Heap.legal (Heap.start 0x1000 0x4000) twoBlocks rfl
  have hinv := heap_invariant (by decide) (by decide) (by decide) hrun
  exact ⟨_, rfl, rfl, rfl, rfl, rfl, hinv.2.1⟩

end Xv6.User
