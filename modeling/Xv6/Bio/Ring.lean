import Xv6.Bio.Refine
import Xv6.Lib.Cycle

namespace Xv6.Bio
open Lib Function
set_option autoImplicit true

/-- The pointers of the buffers, of which `none` is `&bcache.head`. -/
structure Links where
  next : Option BufId → Option BufId
  prev : Option BufId → Option BufId

def Links.unlink (r : Links) (b : BufId) : Links :=
  let r := { r with prev := update r.prev (r.next (some b)) (r.prev (some b)) }
  { r with next := update r.next (r.prev (some b)) (r.next (some b)) }

def Links.insert (r : Links) (b : BufId) : Links :=
  let r := { r with next := update r.next (some b) (r.next none) }
  let r := { r with prev := update r.prev (some b) none }
  let r := { r with prev := update r.prev (r.next none) (some b) }
  { r with next := update r.next none (some b) }

def binit : Links := (List.finRange nBuf).foldl Links.insert ⟨fun _ => none, fun _ => none⟩

/-- The pointers `next` lead through the buffers in `l` and back, and `prev` the other way. -/
structure Ring (r : Links) (l : List BufId) : Prop where
  nodup : l.Nodup
  next : Path r.next none (l.map some) none
  prev : Path r.prev none (l.map some).reverse none

variable {r : Links} {b : BufId} {l l₁ l₂ : List BufId}

theorem headD_reverse (l : List α) (a : α) : l.reverse.headD a = l.getLastD a := by
  rw [List.headD_eq_head?_getD, List.head?_reverse, List.getLastD_eq_getLast?]

theorem getLastD_reverse (l : List α) (a : α) : l.reverse.getLastD a = l.headD a := by
  rw [← headD_reverse, List.reverse_reverse]

theorem nodup_nodes (h : l.Nodup) : (none :: l.map some).Nodup := by
  refine List.nodup_cons.2 ⟨?_, h.map (Option.some_injective _)⟩
  simp

theorem Ring.insert (h : Ring r l) (hb : b ∉ l) : Ring (r.insert b) (b :: l) := by
  have hnd := nodup_nodes h.nodup
  have hnew : some b ∉ none :: l.map some := by
    simpa using hb
  refine ⟨List.nodup_cons.2 ⟨hb, h.nodup⟩, h.next.push (List.nodup_cons.1 hnd).1 hnew, ?_⟩
  have hprev := h.prev.snoc (b := some b) (by simpa using hnd) (by simpa using hnew)
  rw [getLastD_reverse, ← h.next.head] at hprev
  dsimp only [Links.insert]
  rwa [List.map_cons, List.reverse_cons, update_of_ne (Option.some_ne_none b).symm]

theorem Ring.unlink (h : Ring r (l₁ ++ b :: l₂)) : Ring (r.unlink b) (l₁ ++ l₂) := by
  obtain ⟨hnd, hnext, hprev⟩ := h
  have hnodes := nodup_nodes hnd
  have hrev : (none :: (List.map some (l₁ ++ b :: l₂)).reverse).Nodup :=
    List.nodup_cons.2 ((List.nodup_cons.1 hnodes).imp (mt List.mem_reverse.1) List.nodup_reverse.2)
  rw [List.map_append, List.map_cons] at hnext hprev hnodes hrev
  rw [List.reverse_append, List.reverse_cons, List.append_assoc, List.singleton_append] at hprev hrev
  have hn := (path_append.1 hnext).2.2.head
  have hp := (path_append.1 hprev).2.2.head
  have hne : some b ≠ r.next (some b) := by
    rw [hn]
    cases l₂ with
    | nil => exact Option.some_ne_none b
    | cons c l₂ =>
      have hm := (List.nodup_cons.1 (List.nodup_append.1 hnd).2.1).1
      exact fun he => hm (by rw [Option.some.inj he]; exact List.mem_cons_self)
  have hnext := hnext.remove hnodes
  have hprev := hprev.remove hrev
  rw [← headD_reverse, ← hp] at hnext
  rw [getLastD_reverse, ← hn] at hprev
  refine ⟨hnd.sublist ((List.sublist_cons_self b l₂).append_left l₁), ?_, ?_⟩
  · dsimp only [Links.unlink]
    rwa [List.map_append, update_of_ne hne]
  · rw [List.map_append, List.reverse_append]
    exact hprev

theorem Ring.brelse (h : Ring r l) (hb : b ∈ l) : Ring ((r.unlink b).insert b) (b :: l.erase b) := by
  obtain ⟨l₁, l₂, rfl⟩ := List.append_of_mem hb
  have hnd := h.nodup
  have hl : b ∉ l₁ := fun hm => (List.nodup_append.1 hnd).2.2 b hm b List.mem_cons_self rfl
  rw [List.erase_append_right _ hl, List.erase_cons_head]
  refine h.unlink.insert ?_
  have hr := (List.nodup_cons.1 (List.nodup_append.1 hnd).2.1).1
  exact fun hm => (List.mem_append.1 hm).elim hl hr

theorem Ring.inserts (bs : List BufId) (h : Ring r l) (hbs : (bs.reverse ++ l).Nodup) :
    Ring (bs.foldl Links.insert r) (bs.reverse ++ l) := by
  induction bs generalizing r l with
  | nil => exact h
  | cons b bs ih =>
    rw [List.reverse_cons, List.append_assoc, List.singleton_append] at hbs ⊢
    have hb := (List.nodup_cons.1 (List.nodup_append.1 hbs).2.1).1
    exact ih (h.insert hb) hbs

theorem ring_binit : Ring binit (List.finRange nBuf).reverse := by
  have hnil : Ring ⟨fun _ => none, fun _ => none⟩ [] := ⟨List.nodup_nil, rfl, rfl⟩
  have h := hnil.inserts (List.finRange nBuf)
  rw [List.append_nil] at h
  exact h (List.nodup_reverse.2 (List.nodup_finRange nBuf))

theorem path_getElem? {next : Option α → Option α} {l : List α} (h : Path next a (l.map some) none)
    (hk : k ≤ l.length) : next^[k + 1] a = l[k]? := by
  induction l generalizing a k with
  | nil =>
    obtain rfl := Nat.le_zero.1 hk
    exact h
  | cons c l ih =>
    rw [iterate_succ_apply, h.1]
    cases k with
    | zero => rfl
    | succ k => exact ih h.2 (Nat.le_of_succ_le_succ hk)

/-- The cache with its pointers, and the buffers whose `refcnt` has become 0, the last one first. -/
structure Linked where
  s : St
  r : Links
  drops : List BufId

/-- The buffers in the order of their last drop, those never used in the order of `binit`. -/
def Linked.order (x : Linked) : List BufId := x.drops ++ (List.finRange nBuf).reverse

/-- The buffer that `brelse` moves to the head of the list. -/
def dropped (s : St) : Event → Option BufId
  | .call _ _ => none
  | .step p =>
    match s.pc p with
    | .relBody i => if (s.buf i).refcnt - 1 = 0 then some i else none
    | _ => none

def Linked.step (x : Linked) (e : Event) : Except Fault Linked := do
  let s ← Bio.step x.s e
  match dropped x.s e with
  | none => .ok ⟨s, x.r, x.drops⟩
  | some i => .ok ⟨s, (x.r.unlink i).insert i, i :: x.drops⟩

def Linked.boot (disk : Nat → Nat → Block) : Linked := ⟨Bio.boot disk, binit, []⟩

theorem iderw_lru (s : St) (i : BufId) : (s.iderw i).lru = s.lru := by
  rw [St.iderw]
  dsimp only
  split <;> rfl

theorem lru_step (h : Bio.step s e = .ok s') :
    s'.lru = (dropped s e).elim s.lru fun i => i :: s.lru.erase i := by
  cases e with
  | call p c =>
    simp only [Bio.step, callStep] at h
    split at h
    · cases c with
      | bwrite i | brelse i =>
        dsimp only at h
        split at h <;> cases h
        rfl
      | bread dev n | modify i d | logWrite i =>
        cases h
        rfl
    · cases h
  | step p =>
    cases moves_of_procStep h with
    | relBody hp =>
      simp only [dropped, hp]
      split <;> rfl
    | fill hp | writeOut hp =>
      simp only [dropped, hp]
      exact iderw_lru ..
    | _ hp =>
      simp only [dropped, hp]
      rfl

/-- The list of the model is the ring, and the buffers in it are in the order of their last drop. -/
structure Linked.Inv (x : Linked) : Prop where
  perm : x.s.lru.Perm (List.finRange nBuf)
  ring : Ring x.r x.s.lru
  recent : x.s.lru.Pairwise fun i j => x.order.idxOf i < x.order.idxOf j

theorem Linked.Inv.step {x x' : Linked} (h : x.Inv) (hs : x.step e = .ok x') : x'.Inv := by
  obtain ⟨s, hs₁, hs⟩ := bind_ok hs
  have hlru := lru_step hs₁
  cases hd : dropped x.s e with rw [hd] at hs hlru
  | none =>
    cases hs
    obtain ⟨h₁, h₂, h₃⟩ := h
    rw [Option.elim_none] at hlru
    rw [← hlru] at h₁ h₂ h₃
    exact ⟨h₁, h₂, h₃⟩
  | some i =>
    cases hs
    have hi : i ∈ x.s.lru := h.perm.symm.subset (List.mem_finRange i)
    constructor <;> rw [hlru]
    · exact (List.perm_cons_erase hi).symm.trans h.perm
    · exact h.ring.brelse hi
    · have hmem {j : BufId} (hj : j ∈ x.s.lru.erase i) : i ≠ j := by
        rintro rfl
        exact h.ring.nodup.not_mem_erase hj
      refine List.pairwise_cons.2 ⟨fun j hj => ?_, ?_⟩
      · rw [Linked.order, List.cons_append, List.idxOf_cons_self, List.idxOf_cons_ne _ (hmem hj)]
        exact Nat.succ_pos _
      · refine (h.recent.sublist List.erase_sublist).imp_of_mem ?_
        intro j k hj hk hlt
        rw [Linked.order, List.cons_append, List.idxOf_cons_ne _ (hmem hj),
          List.idxOf_cons_ne _ (hmem hk)]
        exact Nat.succ_lt_succ hlt

/-- The links go through each buffer once both ways, along `next` from the one released last; those
never used come behind. -/
theorem bcache_ring (h : Exec Linked.step (fun _ _ => True) (Linked.boot disk) evs x) :
    x.s.lru.Perm (List.finRange nBuf) ∧
      (∀ k ≤ nBuf, x.r.next^[k + 1] none = x.s.lru[k]? ∧ x.r.prev^[k + 1] none = x.s.lru.reverse[k]?) ∧
      x.s.lru.Pairwise fun i j => x.order.idxOf i < x.order.idxOf j := by
  have hi : x.Inv := by
    apply h.invariant (I := Linked.Inv) _ fun _ _ _ hi _ hs => hi.step hs
    refine ⟨List.reverse_perm _, ring_binit, ?_⟩
    exact (by decide : (List.finRange nBuf).reverse.Pairwise fun i j =>
      (List.finRange nBuf).reverse.idxOf i < (List.finRange nBuf).reverse.idxOf j)
  have hlen : x.s.lru.length = nBuf := by
    rw [hi.perm.length_eq, List.length_finRange]
  refine ⟨hi.perm, fun k hk => ⟨path_getElem? hi.ring.next (by rwa [hlen]), ?_⟩, hi.recent⟩
  have hprev := hi.ring.prev
  rw [← List.map_reverse] at hprev
  exact path_getElem? hprev (by rwa [List.length_reverse, hlen])

theorem bcache_ring_readRun :
    ∃ x, Exec Linked.step (fun _ _ => True) (.boot fun _ _ _ => 0) (readRun.take 44) x ∧ x.drops = [0] ∧
      x.r.next none = x.s.lru[0]? := by
  obtain ⟨x, hx, hd⟩ := (Option.any_eq_true _ _).1
    (show (runLegal Linked.step (fun _ _ => true) (.boot fun _ _ _ => 0) (readRun.take 44)).any
      (fun x => x.drops = [0]) = true by decide +kernel)
  have hexec : Exec Linked.step (fun _ _ => True) _ (readRun.take 44) x :=
    (exec_of_runLegal _ _ _ _ hx).mono fun _ _ _ => trivial
  exact ⟨x, hexec, of_decide_eq_true hd, ((bcache_ring hexec).2.1 0 (Nat.zero_le _)).1⟩

end Xv6.Bio
