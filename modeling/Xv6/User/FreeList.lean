import Xv6.User.Umalloc
import Xv6.Lib.Cycle
import Xv6.Lib.Exec
import Mathlib.Data.List.TakeWhile
import Mathlib.Data.Multiset.Range
import Mathlib.Algebra.BigOperators.Group.Multiset.Basic
import Mathlib.Algebra.BigOperators.Group.List.Basic
import Mathlib.Tactic.Abel

namespace Xv6.User
open Lib Function
set_option autoImplicit true

/-- The addresses of the `n` headers from `a` on. -/
def cells (a n : Nat) : Multiset Nat :=
  (Multiset.range n).map fun i => a + 8 * i

theorem mem_cells : x ∈ cells a n ↔ ∃ i < n, a + 8 * i = x := by
  simp only [cells, Multiset.mem_map, Multiset.mem_range]

theorem cells_add (a m n : Nat) : cells a (m + n) = cells a m + cells (a + 8 * m) n := by
  rw [cells, Multiset.range_add, Multiset.map_add, Multiset.map_map]
  congr 1
  apply Multiset.map_congr rfl
  intro i _
  show a + 8 * (m + i) = a + 8 * m + 8 * i
  omega

/-- The memory of the blocks that begin at the addresses in `l`. -/
def room (size : Nat → Nat) (l : List Nat) : Multiset Nat :=
  (l.map fun a => cells a (size a)).sum

theorem room_nil (size : Nat → Nat) : room size [] = 0 :=
  rfl

theorem room_cons (size : Nat → Nat) (a : Nat) (l : List Nat) :
    room size (a :: l) = cells a (size a) + room size l :=
  List.sum_cons

theorem room_append (size : Nat → Nat) (l r : List Nat) :
    room size (l ++ r) = room size l + room size r := by
  rw [room, List.map_append, List.sum_append]
  rfl

theorem room_congr (h : ∀ a ∈ l, size' a = size a) : room size' l = room size l := by
  rw [room, room]
  congr 1
  apply List.map_congr_left
  intro a ha
  rw [h a ha]

/-- The blocks are in order, disjoint and not adjacent, and begin after `lo`. -/
def Spaced (size : Nat → Nat) : Nat → List Nat → Prop
  | _, [] => True
  | lo, c :: l => lo < c ∧ 0 < size c ∧ Spaced size (c + 8 * size c) l

/-- Where the last of the blocks ends. -/
def edge (size : Nat → Nat) : Nat → List Nat → Nat
  | lo, [] => lo
  | _, c :: l => edge size (c + 8 * size c) l

section
variable {size size' : Nat → Nat} {lo a b c : Nat} {l r : List Nat}

theorem Spaced.congr (h : Spaced size lo l) (hs : ∀ a ∈ l, size' a = size a) : Spaced size' lo l := by
  induction l generalizing lo with
  | nil => trivial
  | cons c l ih =>
    have hc := hs c List.mem_cons_self
    refine ⟨h.1, by rw [hc]; exact h.2.1, ?_⟩
    rw [hc]
    exact ih h.2.2 fun a ha => hs a (List.mem_cons_of_mem c ha)

theorem edge_congr (hs : ∀ a ∈ l, size' a = size a) : edge size' lo l = edge size lo l := by
  induction l generalizing lo with
  | nil => rfl
  | cons c l ih =>
    rw [edge, edge, hs c List.mem_cons_self]
    exact ih fun a ha => hs a (List.mem_cons_of_mem c ha)

theorem Spaced.lower (h : Spaced size lo l) (hlo : ∀ d ∈ l.head?, a < d) : Spaced size a l := by
  cases l with
  | nil => trivial
  | cons c l => exact ⟨hlo c rfl, h.2⟩

theorem spaced_append : Spaced size lo (l ++ r) ↔
    Spaced size lo l ∧ Spaced size (edge size lo l) r := by
  induction l generalizing lo with
  | nil => exact ⟨fun h => ⟨trivial, h⟩, And.right⟩
  | cons c l ih =>
    constructor
    · intro h
      have hr := ih.1 h.2.2
      exact ⟨⟨h.1, h.2.1, hr.1⟩, hr.2⟩
    · intro h
      exact ⟨h.1.1, h.1.2.1, ih.2 ⟨h.1.2.2, h.2⟩⟩

theorem edge_append (size : Nat → Nat) (lo : Nat) (l r : List Nat) :
    edge size lo (l ++ r) = edge size (edge size lo l) r := by
  induction l generalizing lo with
  | nil => rfl
  | cons c l ih => exact ih _

theorem edge_getLastD (size : Nat → Nat) (a : Nat) (l : List Nat) :
    edge size (a + 8 * size a) l = l.getLastD a + 8 * size (l.getLastD a) := by
  induction l generalizing a with
  | nil => rfl
  | cons c l ih =>
    rw [List.getLastD_cons]
    exact ih c

theorem Spaced.le_edge (h : Spaced size lo l) : lo + 8 * l.length ≤ edge size lo l := by
  induction l generalizing lo with
  | nil => exact Nat.le_refl _
  | cons c l ih =>
    have hrest := ih h.2.2
    have hlo := h.1
    have hpos := h.2.1
    rw [edge, List.length_cons]
    omega

theorem Spaced.gt (h : Spaced size lo l) (ha : a ∈ l) : lo < a := by
  induction l generalizing lo with
  | nil => cases ha
  | cons c l ih =>
    rcases List.mem_cons.1 ha with rfl | ha
    · exact h.1
    · have hc := ih h.2.2 ha
      have hlo := h.1
      omega

theorem Spaced.pos (h : Spaced size lo l) (ha : a ∈ l) : 0 < size a := by
  induction l generalizing lo with
  | nil => cases ha
  | cons c l ih =>
    rcases List.mem_cons.1 ha with rfl | ha
    · exact h.2.1
    · exact ih h.2.2 ha

theorem Spaced.apart (h : Spaced size lo l) (ha : a ∈ l) (hb : b ∈ l) (hlt : a < b) :
    a + 8 * size a < b := by
  induction l generalizing lo with
  | nil => cases ha
  | cons c l ih =>
    rcases List.mem_cons.1 ha with rfl | hal
    · rcases List.mem_cons.1 hb with rfl | hbl
      · exact absurd hlt (Nat.lt_irrefl _)
      · exact h.2.2.gt hbl
    · rcases List.mem_cons.1 hb with rfl | hbl
      · have hc := h.2.2.gt hal
        omega
      · exact ih h.2.2 hal hbl

theorem Spaced.nodup (h : Spaced size lo l) : (lo :: l).Nodup := by
  induction l generalizing lo with
  | nil => exact List.nodup_singleton lo
  | cons c l ih =>
    rw [List.nodup_cons, List.nodup_cons]
    refine ⟨fun hm => Nat.lt_irrefl _ (h.gt hm), ?_, (List.nodup_cons.1 (ih h.2.2)).2⟩
    intro hc
    have hlt := h.2.2.gt hc
    omega

end

/-- The list from `base` is a cycle through the free blocks in order. -/
structure Heap.Linked (h : Heap) (l : List Nat) : Prop where
  path : Path h.ptr h.base l h.base
  empty : h.size h.base = 0
  spaced : Spaced h.size h.base l
  rover : h.freep ∈ h.base :: l

/-- What is not in the lists of blocks is as before. -/
structure Heap.Frame (h h' : Heap) : Prop where
  base : h'.base = h.base
  brk : h'.brk = h.brk
  regions : h'.regions = h.regions
  live : h'.live = h.live

theorem Heap.Frame.trans {h h' h'' : Heap} (f : h.Frame h') (f' : h'.Frame h'') : h.Frame h'' :=
  ⟨f'.base.trans f.base, f'.brk.trans f.brk, f'.regions.trans f.regions, f'.live.trans f.live⟩

section
variable {h : Heap} {l l₁ l₂ : List Nat} {bp p : Nat}

/-- Where the loop of `free` stops: between the neighbours of the block. -/
def Heap.stops (h : Heap) (bp p : Nat) : Prop :=
  bp > p ∧ bp < h.ptr p ∨ p ≥ h.ptr p ∧ (bp > p ∨ bp < h.ptr p)

instance : DecidablePred (h.stops bp) := fun _ =>
  inferInstanceAs (Decidable (_ ∨ _))

theorem freeLoop_eq (hk : h.stops bp (h.ptr^[k] p)) (hmin : ∀ i < k, ¬ h.stops bp (h.ptr^[i] p))
    (hf : k < fuel) : h.freeLoop bp fuel p = .ok (h.ptr^[k] p) := by
  induction k generalizing p fuel with
  | zero =>
    obtain ⟨fuel, rfl⟩ := Nat.exists_eq_add_one_of_ne_zero (Nat.ne_of_gt hf)
    rw [Heap.freeLoop]
    rcases hk with hk | hk
    · exact if_pos hk
    · split
      · rfl
      · exact if_pos hk
  | succ k ih =>
    obtain ⟨fuel, rfl⟩ := Nat.exists_eq_add_one_of_ne_zero (Nat.ne_of_gt (Nat.zero_lt_of_lt hf))
    have hno : ¬ h.stops bp p := hmin 0 (Nat.succ_pos k)
    rw [Heap.freeLoop, if_neg fun hc => hno (.inl hc), if_neg fun hc => hno (.inr hc)]
    refine ih hk ?_ (Nat.lt_of_succ_lt_succ hf)
    intro i hi
    exact hmin (i + 1) (Nat.succ_lt_succ hi)

theorem Heap.Linked.stops_iff (hl : h.Linked (l₁ ++ l₂)) (hb : h.base < bp) :
    h.stops bp (l₁.getLastD h.base) ↔
      l₁.getLastD h.base < bp ∧ ∀ d ∈ l₂.head?, bp < d := by
  have hnext := (path_append.1 hl.path).2.head
  have hle : h.base ≤ l₁.getLastD h.base := by
    rcases List.mem_cons.1 (getLastD_mem l₁ h.base) with he | hm
    · exact Nat.le_of_eq he.symm
    · exact Nat.le_of_lt (hl.spaced.gt (List.mem_append_left _ hm))
  rw [Heap.stops, hnext]
  cases l₂ with
  | nil =>
    simp only [List.headD_nil, List.head?_nil, Option.not_mem_none, false_imp_iff, implies_true,
      and_true]
    omega
  | cons d l₂ =>
    have hd : l₁.getLastD h.base < d := by
      have hedge := (spaced_append.1 hl.spaced).2.1
      have hlast := edge_getLastD h.size h.base l₁
      rw [hl.empty, Nat.mul_zero, Nat.add_zero] at hlast
      omega
    simp only [List.headD_cons, List.head?_cons, Option.mem_some_iff, forall_eq']
    omega

theorem Heap.Linked.place (hl : h.Linked l) (hb : h.base < bp) (hbp : bp ∉ l) :
    ∃ p ∈ h.base :: l, h.stops bp p := by
  have hsplit : l.takeWhile (· < bp) ++ l.dropWhile (· < bp) = l := List.takeWhile_append_dropWhile
  rw [← hsplit] at hl
  refine ⟨_, ?_, (hl.stops_iff hb).2 ⟨?_, ?_⟩⟩
  · have hm := getLastD_mem (l.takeWhile (· < bp)) h.base
    rcases List.mem_cons.1 hm with he | hm
    · rw [he]
      exact List.mem_cons_self
    · exact List.mem_cons_of_mem _ ((List.takeWhile_prefix _).subset hm)
  · rcases List.mem_cons.1 (getLastD_mem (l.takeWhile (· < bp)) h.base) with he | hm
    · rw [he]
      exact hb
    · have hlt := List.mem_takeWhile_imp hm
      exact of_decide_eq_true hlt
  · intro d hd
    have hnot := List.head?_dropWhile_not (fun x => decide (x < bp)) l
    rw [hd] at hnot
    have hmem : d ∈ l := by
      have hm := List.mem_of_mem_head? hd
      exact (List.dropWhile_suffix _).subset hm
    have hne : d ≠ bp := fun he => hbp (he ▸ hmem)
    simp only [decide_eq_false_iff_not] at hnot
    omega

theorem joinUpper_spec (hp : Path h.ptr p l₂ h.base) (hb : h.base < bp) (hbp : bp ∉ l₂)
    (hs : Spaced h.size lo l₂) (hafter : ∀ d ∈ l₂.head?, bp + 8 * h.size bp ≤ d) :
    ∃ l, l <:+ l₂ ∧ Path (h.joinUpper bp p).ptr bp l h.base ∧
      Spaced (h.joinUpper bp p).size (bp + 8 * (h.joinUpper bp p).size bp) l ∧
      room h.size l + cells bp ((h.joinUpper bp p).size bp) = room h.size l₂ + cells bp (h.size bp) ∧
      h.size bp ≤ (h.joinUpper bp p).size bp ∧ h.Frame (h.joinUpper bp p) ∧
      ∀ a, a ≠ bp → (h.joinUpper bp p).ptr a = h.ptr a ∧ (h.joinUpper bp p).size a = h.size a := by
  have hhead := hp.head
  by_cases hjoin : bp + 8 * h.size bp = h.ptr p
  · cases l₂ with
    | nil =>
      rw [hhead] at hjoin
      simp only [List.headD_nil] at hjoin
      omega
    | cons d l =>
      simp only [List.headD_cons] at hhead
      have he : h.joinUpper bp p =
          (h.setSize bp (h.size bp + h.size d)).setPtr bp (h.ptr d) := by
        rw [Heap.joinUpper, if_pos hjoin, hhead]
        show (h.setSize bp (h.size bp + h.size d)).setPtr bp (h.ptr (h.ptr p)) = _
        rw [hhead]
      have hsize : (h.joinUpper bp p).size = update h.size bp (h.size bp + h.size d) := by
        rw [he]
        rfl
      have hptr : (h.joinUpper bp p).ptr = update h.ptr bp (h.ptr d) := by
        rw [he]
        rfl
      have hne (a : Nat) (ha : a ∈ l) : a ≠ bp :=
        ne_of_mem_of_not_mem (List.mem_cons_of_mem d ha) hbp
      have hself : (h.joinUpper bp p).size bp = h.size bp + h.size d := by
        rw [hsize, update_self]
      rw [hhead] at hjoin
      refine ⟨l, List.suffix_cons d l, ?_, ?_, ?_, ?_, ?_, ?_⟩
      · refine hp.2.start ?_ ?_
        · rw [hptr, update_self]
        · intro a ha
          rw [hptr, update_of_ne (hne a ha)]
      · have hend : bp + 8 * (h.joinUpper bp p).size bp = d + 8 * h.size d := by
          rw [hself]
          omega
        rw [hend]
        refine hs.2.2.congr ?_
        intro a ha
        rw [hsize, update_of_ne (hne a ha)]
      · rw [hself, cells_add, hjoin, room_cons]
        abel
      · rw [hself]
        exact Nat.le_add_right _ _
      · rw [he]
        exact ⟨rfl, rfl, rfl, rfl⟩
      · intro a ha
        rw [hptr, hsize, update_of_ne ha, update_of_ne ha]
        exact ⟨rfl, rfl⟩
  · have he : h.joinUpper bp p = h.setPtr bp (h.ptr p) := by rw [Heap.joinUpper, if_neg hjoin]
    rw [he]
    refine ⟨l₂, List.suffix_rfl, ?_, ?_, rfl, Nat.le_refl _, ⟨rfl, rfl, rfl, rfl⟩, ?_⟩
    · refine hp.start (update_self ..) ?_
      intro a ha
      exact update_of_ne (ne_of_mem_of_not_mem ha hbp) ..
    · refine hs.lower ?_
      intro d hd
      have hle := hafter d hd
      have hhd : h.ptr p = d := by
        rw [hhead, List.headD_eq_head?_getD, hd]
        rfl
      rw [hhd] at hjoin
      exact Nat.lt_of_le_of_ne hle hjoin
    · intro a ha
      exact ⟨update_of_ne ha .., rfl⟩

theorem joinLower_spec (h : Heap) (bp p : Nat) (l₁ l₂ : List Nat) (x : Nat) (hlast : l₁.getLastD h.base = p) (hp₁ : Path h.ptr h.base l₁ x)
    (hp₂ : Path h.ptr bp l₂ h.base) (hempty : h.size h.base = 0) (hs₁ : Spaced h.size h.base l₁)
    (hs₂ : Spaced h.size (bp + 8 * h.size bp) l₂) (hle : p + 8 * h.size p ≤ bp) (hlt : p < bp)
    (hk : 0 < h.size bp) :
    ∃ l, Path (h.joinLower bp p).ptr h.base l h.base ∧ Spaced (h.joinLower bp p).size h.base l ∧
      (h.joinLower bp p).size h.base = 0 ∧ p ∈ h.base :: l ∧
      room (h.joinLower bp p).size l = room h.size l₁ + (room h.size l₂ + cells bp (h.size bp)) ∧
      (∃ c ∈ l, h.size bp ≤ (h.joinLower bp p).size c) ∧ h.Frame (h.joinLower bp p) ∧
      ∀ a, a ≠ p → (h.joinLower bp p).size a = h.size a := by
  have hmem := getLastD_mem l₁ h.base
  rw [hlast] at hmem
  have hafter (a : Nat) (ha : a ∈ l₂) : p ≠ a := by
    have hgt := hs₂.gt ha
    omega
  have hedge := edge_getLastD h.size h.base l₁
  rw [hempty, Nat.mul_zero, Nat.add_zero, hlast] at hedge
  by_cases hjoin : p + 8 * h.size p = bp
  · have hp : p ∈ l₁ := by
      rcases List.mem_cons.1 hmem with rfl | hm
      · omega
      · exact hm
    have he : h.joinLower bp p = (h.setSize p (h.size p + h.size bp)).setPtr p (h.ptr bp) := by
      rw [Heap.joinLower, if_pos hjoin]
      rfl
    have hsize : (h.joinLower bp p).size = update h.size p (h.size p + h.size bp) := by
      rw [he]
      rfl
    have hptr : (h.joinLower bp p).ptr = update h.ptr p (h.ptr bp) := by
      rw [he]
      rfl
    have hself : (h.joinLower bp p).size p = h.size p + h.size bp := by
      rw [hsize, update_self]
    have hne (a : Nat) (ha : a ≠ p) : (h.joinLower bp p).size a = h.size a := by
      rw [hsize, update_of_ne ha]
    obtain ⟨l, rfl⟩ : ∃ l, l₁ = l ++ [p] := by
      rcases List.eq_nil_or_concat l₁ with rfl | ⟨l, b, rfl⟩
      · cases hp
      · rw [List.concat_eq_append, List.getLastD_concat] at hlast
        rw [List.concat_eq_append, hlast]
        exact ⟨l, rfl⟩
    have hnd := hs₁.nodup
    have hnot (a : Nat) (ha : a ∈ l) : a ≠ p := by
      rintro rfl
      rw [List.nodup_cons, List.nodup_append] at hnd
      exact hnd.2.2.2 a ha a (List.mem_singleton_self a) rfl
    have hs := spaced_append.1 hs₁
    refine ⟨l ++ [p] ++ l₂, ?_, ?_, ?_, ?_, ?_, ?_, ?_, hne⟩
    · refine path_append.2 ⟨?_, ?_⟩
      · rw [hptr, ← hp₂.head]
        have hr := hp₁.redirect (c := h.ptr bp) hnd
        rw [hlast] at hr
        exact hr
      · rw [hlast]
        refine hp₂.start ?_ ?_
        · rw [hptr, update_self]
        · intro a ha
          rw [hptr, update_of_ne (hafter a ha).symm]
    · refine spaced_append.2 ⟨spaced_append.2 ⟨hs.1.congr fun a ha => hne a (hnot a ha), ?_, ?_,
        trivial⟩, ?_⟩
      · rw [edge_congr fun a ha => hne a (hnot a ha)]
        exact hs.2.1
      · rw [hself]
        exact Nat.add_pos_right _ hk
      · rw [edge_append]
        have hend : edge (h.joinLower bp p).size (edge (h.joinLower bp p).size h.base l) [p] =
            bp + 8 * h.size bp := by
          rw [edge, edge, hself]
          omega
        rw [hend]
        exact hs₂.congr fun a ha => hne a (hafter a ha).symm
    · have hb : h.base ≠ p := by
        rintro hb
        rw [hb] at hnd
        exact (List.nodup_cons.1 hnd).1 hp
      rw [hne _ hb, hempty]
    · exact List.mem_cons_of_mem _ (List.mem_append_left _ hp)
    · rw [room_append, room_append, room_append, room_congr fun a ha => hne a (hnot a ha),
        room_congr fun a ha => hne a (hafter a ha).symm, room_cons, room_cons, room_nil, room_nil, hself,
        cells_add, hjoin]
      abel
    · refine ⟨p, List.mem_append_left _ hp, ?_⟩
      rw [hself]
      exact Nat.le_add_left _ _
    · rw [he]
      exact ⟨rfl, rfl, rfl, rfl⟩
  · have he : h.joinLower bp p = h.setPtr p bp := by rw [Heap.joinLower, if_neg hjoin]
    rw [he]
    have hlt' : edge h.size h.base l₁ < bp := by
      rw [hedge]
      exact Nat.lt_of_le_of_ne hle hjoin
    refine ⟨l₁ ++ bp :: l₂, ?_, spaced_append.2 ⟨hs₁, hlt', hk, hs₂⟩, hempty, ?_, ?_, ?_,
      ⟨rfl, rfl, rfl, rfl⟩, fun _ _ => rfl⟩
    · refine path_append.2 ⟨?_, ?_, ?_⟩
      · have hr := hp₁.redirect (c := bp) hs₁.nodup
        rw [hlast] at hr
        exact hr
      · rw [hlast]
        exact update_self ..
      · refine hp₂.start (update_of_ne (Nat.ne_of_gt hlt) ..) ?_
        intro a ha
        exact update_of_ne (hafter a ha).symm ..
    · rcases List.mem_cons.1 hmem with rfl | hm
      · exact List.mem_cons_self
      · exact List.mem_cons_of_mem _ (List.mem_append_left _ hm)
    · show room h.size _ = _
      rw [room_append, room_cons]
      abel
    · exact ⟨bp, List.mem_append_right _ List.mem_cons_self, Nat.le_refl _⟩

theorem Heap.Linked.free (hl : h.Linked l) (hb : h.base < bp) (hk : 0 < h.size bp)
    (hapart : ∀ a ∈ l, a + 8 * h.size a ≤ bp ∨ bp + 8 * h.size bp ≤ a) (hlen : l.length < loopFuel) :
    ∃ h' l', h.free (bp + 8) = .ok h' ∧ h'.Linked l' ∧
      room h'.size l' = room h.size l + cells bp (h.size bp) ∧ h.Frame h' ∧
      (∃ c ∈ l', h.size bp ≤ h'.size c) ∧ ∀ a, a ≠ bp → a ∉ l → h'.size a = h.size a := by
  have hbp : bp ∉ l := by
    intro hm
    have hap := hapart bp hm
    omega
  obtain ⟨p₀, hp₀, hstop₀⟩ := hl.place hb hbp
  obtain ⟨k, hkl, hstop, hmin⟩ := hl.path.first (P := h.stops bp) hl.rover hp₀ hstop₀
  have hmem := hl.path.iterate_mem hl.rover k
  have hloop := freeLoop_eq hstop hmin (Nat.lt_of_le_of_lt hkl hlen)
  obtain ⟨l₁, l₂, rfl, hlast⟩ := exists_getLastD hmem
  generalize h.ptr^[k] h.freep = p at hlast hloop hstop
  subst hlast
  obtain ⟨hlt, hhead⟩ := (hl.stops_iff hb).1 hstop
  obtain ⟨hpath₁, hpath₂⟩ := path_append.1 hl.path
  obtain ⟨hs₁, hs₂⟩ := spaced_append.1 hl.spaced
  have hafter : ∀ d ∈ l₂.head?, bp + 8 * h.size bp ≤ d := by
    intro d hd
    have hbd := hhead d hd
    have hap := hapart d (List.mem_append_right _ (List.mem_of_mem_head? hd))
    omega
  have hle : l₁.getLastD h.base + 8 * h.size (l₁.getLastD h.base) ≤ bp := by
    rcases List.mem_cons.1 (getLastD_mem l₁ h.base) with he | hm
    · rw [he, hl.empty]
      omega
    · have hap := hapart _ (List.mem_append_left _ hm)
      omega
  obtain ⟨r, hsub, hr, hsr, hroom, hgrow, hframe, hkeep⟩ :=
    joinUpper_spec hpath₂ hb (fun hm => hbp (List.mem_append_right _ hm)) hs₂ hafter
  have hne₁ (a : Nat) (ha : a ∈ h.base :: l₁) : a ≠ bp := by
    rintro rfl
    rcases List.mem_cons.1 ha with he | hm
    · omega
    · exact hbp (List.mem_append_left _ hm)
  have hlastne := hne₁ _ (getLastD_mem l₁ h.base)
  generalize hp : l₁.getLastD h.base = p at *
  generalize hu : h.joinUpper bp p = h₁ at *
  have hkeep₁ (a : Nat) (ha : a ∈ l₁) := hkeep a (hne₁ a (List.mem_cons_of_mem _ ha))
  have hbase := hkeep h.base (hne₁ _ List.mem_cons_self)
  have hlower := joinLower_spec h₁ bp p l₁ r (l₂.headD h.base)
  rw [hframe.base] at hlower
  obtain ⟨l, hpath, hspaced, hempty, hrover, hroom', ⟨c, hc, hfit⟩, hframe', hkeep'⟩ :=
    hlower hp (hpath₁.start hbase.1 fun a ha => (hkeep₁ a ha).1) hr (hbase.2.trans hl.empty)
      (hs₁.congr fun a ha => (hkeep₁ a ha).2) hsr (by rw [(hkeep p hlastne).2]; exact hle) hlt
      (Nat.lt_of_lt_of_le hk hgrow)
  have hframes := hframe.trans hframe'
  have hrest : room h₁.size r = room h.size r := by
    apply room_congr
    intro a ha
    have hne : a ≠ bp := by
      rintro rfl
      exact hbp (List.mem_append_right _ (hsub.subset ha))
    exact (hkeep a hne).2
  refine ⟨{ h₁.joinLower bp p with freep := p }, l, ?_, ⟨?_, ?_, ?_, ?_⟩, ?_, ?_, ?_, ?_⟩
  · simp only [Heap.free, Nat.add_sub_cancel, hloop, ok_bind, hu]
  · show Path (h₁.joinLower bp p).ptr (h₁.joinLower bp p).base l (h₁.joinLower bp p).base
    rw [hframes.base]
    exact hpath
  · show (h₁.joinLower bp p).size (h₁.joinLower bp p).base = 0
    rw [hframes.base]
    exact hempty
  · show Spaced (h₁.joinLower bp p).size (h₁.joinLower bp p).base l
    rw [hframes.base]
    exact hspaced
  · show p ∈ (h₁.joinLower bp p).base :: l
    rw [hframes.base]
    exact hrover
  · show room (h₁.joinLower bp p).size l = _
    rw [hroom', room_congr fun a ha => (hkeep₁ a ha).2, hrest, hroom, room_append]
    abel
  · exact ⟨hframes.base, hframes.brk, hframes.regions, hframes.live⟩
  · exact ⟨c, hc, Nat.le_trans hgrow hfit⟩
  · intro a ha hal
    show (h₁.joinLower bp p).size a = h.size a
    by_cases hap : a = p
    · have hmem := getLastD_mem l₁ h.base
      rw [hp, ← hap] at hmem
      rcases List.mem_cons.1 hmem with he | hm
      · rw [he, hempty, hl.empty]
      · exact absurd (List.mem_append_left _ hm) hal
    · rw [hkeep' a hap, (hkeep a ha).2]

end

end Xv6.User
