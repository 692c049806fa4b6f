import Xv6.Proc.Table
import Xv6.Vm.Start

namespace Xv6.Vm.System
open Lib Function
open Xv6.Proc (Slot nProc)
set_option autoImplicit true

/-- A process, with the page of its kernel stack. -/
structure Pcb where
  task : Task
  kstack : Nat
  zombie : Bool

/-- The allocator, the processes in use, and the pages that pipes are in. -/
structure St where
  k : Kmem
  proc : Slot → Option Pcb
  initproc : Slot
  pipes : List Nat

def allocproc (s : St) : Kmem × Option (Slot × Nat) :=
  match (List.finRange nProc).find? fun i => (s.proc i).isNone with
  | none => (s.k, none)
  | some i =>
    match kalloc s.k with
    | (k, none) => (k, none)
    | (k, some p) => (k, some (i, p))

def fork (L : Image) (s : St) (x : Pcb) : Except Fault St :=
  match allocproc s with
  | (k, none) => .ok { s with k := k }
  | (k, some (i, kstack)) => do
    let (k, o) ← copyuvm L k x.task.proc.pgdir x.task.proc.sz
    match o with
    | none => do
      let k ← kfree L k kstack
      .ok { s with k := k }
    | some d =>
      .ok { s with
        k := k
        proc := update s.proc i
          (some ⟨{ x.task with proc := ⟨d, x.task.proc.sz⟩ }, kstack, false⟩) }

/-- What a process does: system calls, and stores to its memory. -/
inductive Call where
  | fork
  | exec (path : List UInt8) (file : Option File) (argv : List (List UInt8))
  | sbrk (n : Int)
  | store (a : Nat) (b : UInt8)
  | exit

def call (L : Image) (s : St) (p : Slot) (x : Pcb) : Call → Except Fault St
  | .fork => fork L s x
  | .exec path file argv => do
    let (k, t, _) ← exec L s.k x.task path file argv
    .ok { s with k := k, proc := update s.proc p (some { x with task := t }) }
  | .sbrk n => do
    let (k, q, _) ← growproc L s.k x.task.proc n
    .ok { s with k := k, proc := update s.proc p (some { x with task := { x.task with proc := q } }) }
  | .store a b => .ok { s with k := store x.task.proc.pgdir s.k (a, b) }
  | .exit =>
    if p = s.initproc then .error (.panic "init exiting")
    else .ok { s with proc := update s.proc p (some { x with zombie := true }) }

/-- Each runs to its end. `wait` finds any process that has exited, `pipe` is told whether there are
files and descriptors, and `close` closes the second end of a pipe. -/
inductive Event where
  | call (p : Slot) (c : Call)
  | wait (p : Slot)
  | pipe (files fds : Bool)
  | close (page : Nat)

def step (L : Image) (s : St) : Event → Except Fault St
  | .call p c =>
    match s.proc p with
    | none => .ok s
    | some x => if x.zombie then .ok s else call L s p x c
  | .wait p =>
    match s.proc p with
    | none => .ok s
    | some x =>
      if x.zombie then do
        let k ← kfree L s.k x.kstack
        let k ← freevm L k x.task.proc.pgdir
        .ok { s with k := k, proc := update s.proc p none }
      else .ok s
  | .pipe files fds =>
    if files then
      match kalloc s.k with
      | (k, none) => .ok { s with k := k }
      | (k, some page) =>
        if fds then .ok { s with k := k, pipes := page :: s.pipes }
        else do
          let k ← kfree L k page
          .ok { s with k := k }
    else .ok s
  | .close page =>
    if page ∈ s.pipes then do
      let k ← kfree L s.k page
      .ok { s with k := k, pipes := s.pipes.erase page }
    else .ok s

/-- No `sbrk` gives up exactly all memory, no argument outgrows the device space, stores are below
`KERNBASE`, and init does not exit. -/
def legal (s : St) : Event → Prop
  | .call _ (.exec _ _ argv) => ∀ a ∈ argv, a.length + 1 ≤ 2 ^ 25
  | .call p (.sbrk n) => -2 ^ 31 ≤ n ∧ n < 2 ^ 31 ∧
    ∀ x, s.proc p = some x → (x.task.proc.sz : Int) + n ≠ 0
  | .call _ (.store a _) => a < kernBase
  | .call p .exit => p ≠ s.initproc
  | _ => True

/-- The process whose memory a step may change. -/
def Event.changes : Event → Option Slot
  | .call _ .fork | .pipe _ _ | .close _ => none
  | .call p _ | .wait p => some p

def Pcb.pages (x : Pcb) : Multiset Nat := x.task.proc.pgdir.pages + {x.kstack}

def pagesOf (o : Option Pcb) : Multiset Nat := o.elim 0 Pcb.pages

/-- The pages that processes and pipes have. -/
def St.owned (s : St) : Multiset Nat := ∑ p, pagesOf (s.proc p) + s.pipes

/-- No page is free or owned twice, all are pages of the allocator, and the memory of each process
is below its size. -/
structure Inv (L : Image) (s : St) : Prop where
  nodup : (s.k.free + s.owned).Nodup
  range : ∀ q ∈ s.k.free + s.owned, L.InRange q
  exact : ∀ p x, s.proc p = some x → Exact x.task.proc

/-- The pages `P` and some free ones have become `Q` and the free ones, and no other was written. -/
structure Trade (k k' : Kmem) (P Q : Multiset Nat) : Prop where
  books : k.free + P = k'.free + Q
  data : ∀ q, q ∉ k.free → q ∉ P → k'.data q = k.data q

variable {L : Image} {k k' k₁ : Kmem} {P Q R : Multiset Nat} {d : Pgdir} {s s' : St}
  {x : Pcb} {p q : Slot}

theorem Trade.refl (k : Kmem) (P : Multiset Nat) : Trade k k P P :=
  ⟨rfl, fun _ _ _ => rfl⟩

theorem Trade.trans (h₁ : Trade k k₁ P Q) (h₂ : Trade k₁ k' Q R) : Trade k k' P R := by
  refine ⟨h₁.books.trans h₂.books, fun q hk hP => ?_⟩
  have hq : q ∉ k₁.free + Q := by
    rw [← h₁.books, Multiset.mem_add]
    exact not_or.2 ⟨hk, hP⟩
  rw [Multiset.mem_add, not_or] at hq
  rw [h₂.data q hq.1 hq.2, h₁.data q hk hP]

theorem Trade.frame (h : Trade k k' P Q) (R : Multiset Nat) : Trade k k' (P + R) (Q + R) := by
  refine ⟨?_, fun q hk hP => h.data q hk fun hq => hP (Multiset.mem_add.2 (.inl hq))⟩
  rw [← add_assoc, h.books, add_assoc]

theorem trade_kalloc (h : kalloc k = (k', o)) : Trade k k' 0 (ofOption o) := by
  rcases kalloc_cases h with ⟨rfl, hf, hd⟩ | ⟨p, rfl, hf, hd⟩
  · refine ⟨?_, fun q _ _ => by rw [hd]⟩
    rw [Kmem.free, Kmem.free, hf]
    rfl
  · refine ⟨?_, fun q _ _ => by rw [hd]⟩
    rw [Kmem.free, hf, add_zero, ← Multiset.cons_coe, ← Multiset.singleton_add, add_comm]
    rfl

theorem trade_kfree (h : L.InRange n) (k : Kmem) : ∃ k', kfree L k n = .ok k' ∧ Trade k k' {n} 0 := by
  refine ⟨_, kfree_ok h k, ((add_zero _).trans (free_release k [n])).symm, fun q _ hq => ?_⟩
  have hm : q ∉ [n] := fun hm => hq (Multiset.mem_singleton.2 (List.mem_singleton.1 hm))
  exact data_release hm k

theorem trade_copyuvm {c : Proc} (h : Exact c) (ho : Owned L k c.pgdir) :
    ∃ k' o, copyuvm L k c.pgdir c.sz = .ok (k', o) ∧ Trade k k' 0 (o.elim 0 Pgdir.pages) ∧
      ∀ d, o = some d → Exact ⟨d, c.sz⟩ := by
  have hup := pagesUp_le (Nat.le_of_lt h.lt)
  have hpresent (w : Nat) (hw : w < pagesUp c.sz) : (c.pgdir.at w).isSome :=
    (h.present w (Nat.lt_of_lt_of_le hw hup)).2 ((page_lt _ _).2 hw)
  rcases copyuvm_spec hpresent ho with ⟨k', o, hc, hdata, hnone, hsome⟩ | ⟨hbig, -⟩
  · refine ⟨k', o, hc, ⟨?_, fun q hq _ => hdata q hq⟩, ?_⟩
    · rw [add_zero]
      cases o with
      | none => rw [hnone rfl, Option.elim_none, add_zero]
      | some d => rw [(hsome d rfl).2.books, Option.elim_some, add_zero]
    · intro d hd
      have hcopy := (hsome d hd).2
      refine ⟨h.lt, fun w hw => ?_⟩
      rw [page_lt]
      by_cases hin : w < pagesUp c.sz
      · obtain ⟨e, he⟩ := Option.isSome_iff_exists.1 (hpresent w hin)
        obtain ⟨n, hn, -⟩ := hcopy.copy w e hin he
        exact iff_of_true (by rw [hn]; rfl) hin
      · rw [hcopy.rest w (Nat.le_of_not_lt hin) hw]
        exact iff_of_false nofun hin
  · exact absurd (Nat.lt_trans hbig h.lt) (Nat.lt_irrefl _)

theorem trade_allocuvm {c : Proc} (h : Exact c) (ho : Owned L k c.pgdir) (hle : c.sz ≤ newsz)
    (ha : allocuvm L k c.pgdir c.sz newsz = .ok (k', d, r)) : Trade k k' c.pgdir.pages d.pages := by
  by_cases hnew : newsz < kernBase
  · have hup := pagesUp_le (Nat.le_of_lt hnew)
    have habsent (w : Nat) (h₁ : pagesUp c.sz ≤ w) (h₂ : w < pagesUp newsz) : c.pgdir.at w = none :=
      h.at_none (Nat.lt_of_lt_of_le h₂ hup) h₁
    obtain ⟨k₁, d₁, r₁, ha₁, hr⟩ := allocuvm_spec hle hnew ho.free habsent
    cases ha.symm.trans ha₁
    rcases hr with ⟨-, hr⟩ | ⟨-, hr⟩
    · exact ⟨hr.conserve (pagesUp_mono hle) hup habsent, fun q hq _ => hr.data q hq⟩
    · exact ⟨hr.conserve, fun q hq _ => hr.data q hq⟩
  · rw [allocuvm, if_pos (Nat.le_of_not_lt hnew)] at ha
    cases ha
    exact .refl _ _

theorem trade_deallocuvm {c : Proc} (h : Exact c) (ho : Owned L k c.pgdir)
    (hd : deallocuvm L k c.pgdir c.sz newsz = .ok (k', d, r)) : Trade k k' c.pgdir.pages d.pages := by
  by_cases hle : c.sz ≤ newsz
  · rw [deallocuvm, if_pos hle] at hd
    cases hd
    exact .refl _ _
  · have hlt := Nat.lt_of_not_le hle
    have hup := pagesUp_le (Nat.le_of_lt h.lt)
    have hmono := pagesUp_mono (Nat.le_of_lt hlt)
    rw [deallocuvm_eq hlt (Nat.le_of_lt h.lt) fun w e h₁ h₂ =>
      ho.ranged w e h₁ (Nat.lt_of_lt_of_le h₂ hup)] at hd
    cases hd
    have huser := @user_clear c.pgdir (pagesUp newsz) (pagesUp c.sz - pagesUp newsz) (by omega)
    rw [Nat.add_sub_cancel' hmono] at huser
    refine ⟨?_, fun q _ hq => data_release ?_ k⟩
    · rw [free_release, Pgdir.pages, Pgdir.pages, tables_clear, ← huser, Pgdir.clear]
      abel
    · intro hm
      obtain ⟨w, e, -, hw, he, rfl⟩ := mem_mapped.1 hm
      exact hq (mem_pages_of_user (mem_user_of_at (by omega) he))

theorem trade_growproc {c : Proc} (h : Exact c) (ho : Owned L k c.pgdir) (hmin : -2 ^ 31 ≤ n)
    (hmax : n < 2 ^ 31) (hz : (c.sz : Int) + n ≠ 0) :
    ∃ k' c' r, growproc L k c n = .ok (k', c', r) ∧ Exact c' ∧
      Trade k k' c.pgdir.pages c'.pgdir.pages := by
  have hlt := h.lt
  simp only [kernBase] at hlt
  have hexact : ∃ k' c' r, growproc L k c n = .ok (k', c', r) ∧ Exact c' := by
    by_cases hn : 0 < n
    · obtain ⟨k', c', r, hg, ⟨-, -, hr⟩ | ⟨-, hr⟩⟩ := growproc_grow h ho hn hmax
      · exact ⟨k', c', r, hg, hr.exact⟩
      · refine ⟨k', c', r, hg, by rw [hr.sz]; exact h.lt, fun w hw => ?_⟩
        rw [hr.same w hw, hr.sz]
        exact h.present w hw
    · by_cases hpos : 0 < (c.sz : Int) + n
      · by_cases hneg : n < 0
        · obtain ⟨k', c', hg, hr⟩ := growproc_shrink h ho hneg hpos
          exact ⟨k', c', 0, hg, hr.exact⟩
        · rw [growproc, if_neg hn, if_neg hneg]
          exact ⟨k, c, 0, rfl, h⟩
      · have hwrap : c.sz ≤ addInt c.sz n := by
          rw [addInt]
          omega
        rw [growproc, if_neg hn, if_pos (by omega), deallocuvm, if_pos hwrap, ok_bind]
        dsimp only
        split
        · exact ⟨k, c, -1, rfl, h⟩
        · exact ⟨k, c, 0, rfl, h⟩
  obtain ⟨k', c', r, hg, hc⟩ := hexact
  refine ⟨k', c', r, hg, hc, ?_⟩
  rw [growproc] at hg
  split at hg
  · next hn =>
    obtain ⟨⟨k₁, d, sz⟩, ha, hg⟩ := bind_ok hg
    have hle : c.sz ≤ addInt c.sz n := by
      rw [addInt]
      omega
    have ht := trade_allocuvm h ho hle ha
    dsimp only at hg
    split at hg <;> cases hg <;> exact ht
  · split at hg
    · obtain ⟨⟨k₁, d, sz⟩, hd, hg⟩ := bind_ok hg
      have ht := trade_deallocuvm h ho hd
      dsimp only at hg
      split at hg <;> cases hg <;> exact ht
    · cases hg
      exact .refl _ _

theorem trade_exec {t : Task} {argv : List (List UInt8)} (h : Exact t.proc) (ho : Owned L k t.proc.pgdir)
    (hargs : ∀ a ∈ argv, a.length + 1 ≤ 2 ^ 25) (path : List UInt8) (file : Option File) :
    ∃ k' t' r, exec L k t path file argv = .ok (k', t', r) ∧ Exact t'.proc ∧
      Trade k k' t.proc.pgdir.pages t'.proc.pgdir.pages := by
  cases file with
  | none => exact ⟨k, t, -1, rfl, h, .refl _ _⟩
  | some ip =>
    obtain ⟨k', t', r, he, ⟨-, rfl, hf, hd⟩ | ⟨-, hs⟩⟩ := exec_spec ho (reaches_of_le hargs ip) path
    · exact ⟨k', t', r, he, h, by rw [hf], fun q hq _ => hd q hq⟩
    · exact ⟨k', t', r, he, ⟨by rw [hs.sz]; exact hs.lt, hs.present⟩, hs.books, hs.data⟩

theorem trade_freevm (h : ∀ q ∈ d.pages, L.InRange q) (k : Kmem) :
    ∃ k', freevm L k d = .ok k' ∧ Trade k k' d.pages 0 := by
  obtain ⟨k', hf, hfree, hdata⟩ := freevm_spec (k := k) h
  exact ⟨k', hf, by rw [hfree, add_zero], fun q _ hq => hdata q hq⟩

theorem trade_store (d : Pgdir) (k : Kmem) (ha : a < kernBase) (b : UInt8) :
    Trade k (store d k (a, b)) d.pages d.pages := by
  rw [store]
  cases he : d.pte a with
  | none => exact .refl _ _
  | some e =>
    refine ⟨rfl, fun q _ hq => update_of_ne ?_ _ _⟩
    rintro rfl
    exact hq (mem_pages_of_user (pte_user ha he))

/-- No page is lost or made, and only the process named may have changed. -/
structure Moves (s s' : St) (o : Option Slot) : Prop where
  books : s'.k.free + s'.owned = s.k.free + s.owned
  exact : ∀ p x, s'.proc p = some x → Exact x.task.proc
  others : ∀ q x, s.proc q = some x → o ≠ some q →
    s'.proc q = some x ∧ ∀ n ∈ x.pages, s'.k.data n = s.k.data n

theorem Inv.moved (h : Inv L s) (hm : Moves s s' o) : Inv L s' := by
  refine ⟨?_, ?_, hm.exact⟩
  · rw [hm.books]
    exact h.nodup
  · rw [hm.books]
    exact h.range

theorem Trade.books_owned (ht : Trade s.k s'.k P Q) (ho : s.owned + Q = s'.owned + P) :
    s'.k.free + s'.owned = s.k.free + s.owned := by
  apply add_right_cancel (b := P)
  rw [add_assoc, ← ho, add_right_comm s.k.free, ht.books]
  abel

theorem pagesOf_some (x : Pcb) : pagesOf (some x) = x.task.proc.pgdir.pages + {x.kstack} := by
  rw [pagesOf, Option.elim_some, Pcb.pages]

theorem pagesOf_le (s : St) (p : Slot) : pagesOf (s.proc p) ≤ s.owned := by
  rw [St.owned, ← Finset.sum_erase_add _ _ (Finset.mem_univ p), add_right_comm]
  exact Multiset.le_add_left _ _

section Inv
variable (h : Inv L s)
include h

theorem Inv.owns (hx : s.proc p = some x) : Owned L s.k x.task.proc.pgdir := by
  have hle := pagesOf_le s p
  rw [hx, pagesOf_some] at hle
  have hle := add_le_add_right ((Multiset.le_add_right _ _).trans hle) s.k.free
  exact ⟨Multiset.nodup_of_le hle h.nodup, fun q hq => h.range q (Multiset.mem_of_le hle hq)⟩

theorem Inv.apart (hq : s.proc q = some x) (hn : n ∈ x.pages) :
    n ∉ s.k.free ∧ n ∉ s.pipes ∧ ∀ p, p ≠ q → n ∉ pagesOf (s.proc p) := by
  have hn : n ∈ pagesOf (s.proc q) := by
    rwa [hq, pagesOf_some, ← Pcb.pages]
  obtain ⟨-, hown, hfree⟩ := Multiset.nodup_add.1 h.nodup
  obtain ⟨hsum, -, hpipes⟩ := Multiset.nodup_add.1 hown
  refine ⟨fun hf => Multiset.disjoint_left.1 hfree hf (Multiset.mem_of_le (pagesOf_le s q) hn), ?_, ?_⟩
  · intro hm
    exact Multiset.disjoint_left.1 hpipes (Multiset.mem_sum.2 ⟨q, Finset.mem_univ q, hn⟩) hm
  · intro p hp hm
    exact hp (eq_of_nodup_sum hsum (Finset.mem_univ p) (Finset.mem_univ q) hm hn)

theorem Inv.edit (p : Slot) (o : Option Pcb) (ht : Trade s.k k' (pagesOf (s.proc p)) (pagesOf o))
    (ho : ∀ x, o = some x → Exact x.task.proc) :
    Moves s { s with k := k', proc := update s.proc p o } (some p) := by
  have hsum := sum_change (f := fun q => pagesOf (update s.proc p o q))
    (g := fun q => pagesOf (s.proc q))
    (Finset.mem_univ p) fun q _ hq => by rw [update_of_ne hq]
  rw [update_self] at hsum
  refine ⟨?_, ?_, ?_⟩
  · apply ht.books_owned
    rw [St.owned, St.owned, add_right_comm, ← hsum, add_right_comm]
  · exact (forall_update_iff s.proc (p := fun _ o => ∀ x, o = some x → Exact x.task.proc)).2
      ⟨ho, fun q _ => h.exact q⟩
  · intro q x hx hq
    have hqp : q ≠ p := fun he => hq (congrArg some he.symm)
    refine ⟨(update_of_ne hqp ..).trans hx, fun n hn => ?_⟩
    obtain ⟨hf, -, ho⟩ := h.apart hx hn
    exact ht.data n hf (ho p (Ne.symm hqp))

theorem Inv.memory {l : List Nat} (ht : Trade s.k k' P Q) (hP : ∀ n ∈ P, n ∈ s.pipes)
    (hl : (s.pipes : Multiset Nat) + Q = l + P) : Moves s { s with k := k', pipes := l } none := by
  refine ⟨?_, h.exact, fun q x hx _ => ⟨hx, fun n hn => ?_⟩⟩
  · apply ht.books_owned
    rw [St.owned, St.owned, add_assoc, hl, add_assoc]
  · obtain ⟨hf, hp, -⟩ := h.apart hx hn
    exact ht.data n hf fun hm => hp (hP n hm)

theorem Inv.spare (ht : Trade s.k k' 0 0) : Moves s { s with k := k' } none :=
  h.memory ht (fun _ hn => absurd hn (Multiset.notMem_zero _)) rfl

theorem Inv.change {t : Task} (hx : s.proc p = some x)
    (ht : Trade s.k k' x.task.proc.pgdir.pages t.proc.pgdir.pages) (ho : Exact t.proc) :
    Moves s { s with k := k', proc := update s.proc p (some { x with task := t }) } (some p) := by
  apply h.edit
  · rw [hx, pagesOf_some, pagesOf_some]
    exact ht.frame {x.kstack}
  · intro y hy
    cases hy
    exact ho

theorem Inv.fresh (hk : kalloc s.k = (k', some n)) : L.InRange n := by
  apply h.range
  rw [← add_zero s.k.free, (trade_kalloc hk).books]
  exact Multiset.mem_add.2 (.inl (Multiset.mem_add.2 (.inr (Multiset.mem_singleton_self _))))

theorem Inv.fork (hx : s.proc p = some x) : ∃ s', fork L s x = .ok s' ∧ Moves s s' none := by
  rw [System.fork, allocproc]
  cases hi : (List.finRange nProc).find? fun i => (s.proc i).isNone with
  | none => exact ⟨_, rfl, h.spare (.refl _ _)⟩
  | some i =>
    have hnone := List.find?_some hi
    rw [Option.isNone_iff_eq_none] at hnone
    dsimp only
    cases hk : kalloc s.k with | mk k₁ o
    have h₁ := trade_kalloc hk
    cases o with
    | none => exact ⟨_, rfl, h.spare h₁⟩
    | some stack =>
      have hbooks := h₁.books
      rw [add_zero] at hbooks
      have ho : Owned L k₁ x.task.proc.pgdir := by
        have ho := h.owns hx
        have hle : k₁.free + x.task.proc.pgdir.pages ≤ s.k.free + x.task.proc.pgdir.pages := by
          rw [hbooks, add_right_comm]
          exact Multiset.le_add_right _ _
        exact ⟨Multiset.nodup_of_le hle ho.1, fun q hq => ho.2 q (Multiset.mem_of_le hle hq)⟩
      obtain ⟨k₂, o, hcopy, h₂, hexact⟩ := trade_copyuvm (h.exact p x hx) ho
      have h₂ := h₂.frame {stack}
      rw [zero_add] at h₂
      dsimp only
      rw [hcopy, ok_bind]
      cases o with
      | none =>
        obtain ⟨k₃, hfree, h₃⟩ := trade_kfree (h.fresh hk) k₂
        rw [Option.elim_none, zero_add] at h₂
        dsimp only
        rw [hfree, ok_bind]
        exact ⟨_, rfl, h.spare ((h₁.trans h₂).trans h₃)⟩
      | some d =>
        refine ⟨_, rfl, ?_⟩
        rw [Option.elim_some] at h₂
        have ht : Trade s.k k₂ (pagesOf (s.proc i))
            (pagesOf (some ⟨{ x.task with proc := ⟨d, x.task.proc.sz⟩ }, stack, false⟩)) := by
          rw [hnone, pagesOf_some]
          exact h₁.trans h₂
        have hm := h.edit i _ ht (by rintro y ⟨⟩; exact hexact d rfl)
        refine ⟨hm.books, hm.exact, fun q y hy _ => hm.others q y hy ?_⟩
        rintro ⟨⟩
        cases hnone.symm.trans hy

theorem Inv.still (o : Option Slot) : Moves s s o :=
  ⟨rfl, h.exact, fun _ _ hx _ => ⟨hx, fun _ _ => rfl⟩⟩

theorem Inv.call {c : Call} (hx : s.proc p = some x) (hl : legal s (.call p c)) :
    ∃ s', call L s p x c = .ok s' ∧ Moves s s' (Event.call p c).changes := by
  have hexact := h.exact p x hx
  cases c with
  | fork => exact h.fork hx
  | exec path file argv =>
    obtain ⟨k', t, r, he, ho, ht⟩ := trade_exec hexact (h.owns hx) hl path file
    rw [System.call, he]
    exact ⟨_, rfl, h.change hx ht ho⟩
  | sbrk n =>
    obtain ⟨k', c, r, hg, ho, ht⟩ := trade_growproc hexact (h.owns hx) hl.1 hl.2.1 (hl.2.2 x hx)
    rw [System.call, hg]
    exact ⟨_, rfl, h.change (t := { x.task with proc := c }) hx ht ho⟩
  | store a b =>
    have hm := h.change hx (trade_store x.task.proc.pgdir s.k hl b) hexact
    rw [show some { x with task := x.task } = s.proc p from hx.symm, update_eq_self] at hm
    exact ⟨_, rfl, hm⟩
  | exit =>
    have ht : Trade s.k s.k (pagesOf (s.proc p)) (pagesOf (some { x with zombie := true })) := by
      rw [hx, pagesOf_some, pagesOf_some]
      exact .refl _ _
    rw [System.call, if_neg hl]
    exact ⟨_, rfl, h.edit p _ ht (by rintro y ⟨⟩; exact hexact)⟩

theorem Inv.wait (hx : s.proc p = some x) : ∃ k', (do
      let k ← kfree L s.k x.kstack
      freevm L k x.task.proc.pgdir) = .ok k' ∧ Trade s.k k' (pagesOf (s.proc p)) 0 := by
  have hin (n : Nat) (hn : n ∈ x.task.proc.pgdir.pages + {x.kstack}) : L.InRange n := by
    apply h.range
    apply Multiset.mem_add.2 (.inr (Multiset.mem_of_le (pagesOf_le s p) _))
    rwa [hx, pagesOf_some]
  have hstack := hin _ (Multiset.mem_add.2 (.inr (Multiset.mem_singleton_self _)))
  obtain ⟨k₁, hk, h₁⟩ := trade_kfree hstack s.k
  obtain ⟨k₂, hv, h₂⟩ := trade_freevm (fun n hn => hin n (Multiset.mem_add.2 (.inl hn))) k₁
  have h₁ := h₁.frame x.task.proc.pgdir.pages
  rw [zero_add, add_comm] at h₁
  rw [hk, ok_bind, hx, pagesOf_some]
  exact ⟨k₂, hv, h₁.trans h₂⟩

theorem Inv.step (hl : legal s e) : ∃ s', step L s e = .ok s' ∧ Moves s s' e.changes := by
  cases e with
  | call p c =>
    rw [System.step]
    cases hx : s.proc p with
    | none => exact ⟨s, rfl, h.still _⟩
    | some x =>
      dsimp only
      split
      · exact ⟨s, rfl, h.still _⟩
      · exact h.call hx hl
  | wait p =>
    rw [System.step]
    cases hx : s.proc p with
    | none => exact ⟨s, rfl, h.still _⟩
    | some x =>
      dsimp only
      split
      · obtain ⟨k', hk, ht⟩ := h.wait hx
        obtain ⟨k₁, h₁, hk⟩ := bind_ok hk
        rw [h₁, ok_bind, hk]
        exact ⟨_, rfl, h.edit p none ht nofun⟩
      · exact ⟨s, rfl, h.still _⟩
  | pipe files fds =>
    rw [System.step]
    split
    · cases hk : kalloc s.k with | mk k₁ o
      have h₁ := trade_kalloc hk
      cases o with
      | none => exact ⟨_, rfl, h.spare h₁⟩
      | some n =>
        dsimp only
        split
        · refine ⟨_, rfl, h.memory h₁ (fun _ hn => absurd hn (Multiset.notMem_zero _)) ?_⟩
          rw [add_zero, add_comm]
          rfl
        · obtain ⟨k₂, hf, h₂⟩ := trade_kfree (h.fresh hk) k₁
          rw [hf]
          exact ⟨_, rfl, h.spare (h₁.trans h₂)⟩
    · exact ⟨s, rfl, h.still _⟩
  | close n =>
    rw [System.step]
    split
    · next hn =>
      have hin := h.range n (Multiset.mem_add.2 (.inr (Multiset.mem_add.2 (.inr hn))))
      obtain ⟨k', hf, ht⟩ := trade_kfree hin s.k
      rw [hf]
      refine ⟨_, rfl, h.memory ht (fun m hm => ?_) ?_⟩
      · rw [Multiset.mem_singleton.1 hm]
        exact hn
      · rw [add_zero, ← Multiset.coe_erase, add_comm, Multiset.singleton_add]
        exact (Multiset.cons_erase hn).symm
    · exact ⟨s, rfl, h.still _⟩

end Inv

/-- In every run, whichever calls of `kalloc` fail, each page is free or has one owner, no call
faults, and no step changes the memory of another process. -/
theorem pages_owned {s₀ : St} (h₀ : Inv L s₀) (hx : Exec (step L) legal s₀ es s) :
    s.k.free + s.owned = s₀.k.free + s₀.owned ∧ (s.k.free + s.owned).Nodup ∧
      ∀ e, legal s e → ∃ s', step L s e = .ok s' ∧
        ∀ q x, s.proc q = some x → e.changes ≠ some q → s'.proc q = some x ∧
          ∀ a, a < kernBase → load s'.k x.task.proc.pgdir a = load s.k x.task.proc.pgdir a := by
  have hi : Inv L s ∧ s.k.free + s.owned = s₀.k.free + s₀.owned := by
    apply hx.invariant (I := fun s => Inv L s ∧ s.k.free + s.owned = s₀.k.free + s₀.owned) ⟨h₀, rfl⟩
    intro s e s' h hl ho
    obtain ⟨s₁, ho₁, hm⟩ := h.1.step hl
    cases ho.symm.trans ho₁
    exact ⟨h.1.moved hm, hm.books.trans h.2⟩
  refine ⟨hi.2, hi.1.nodup, fun e hl => ?_⟩
  obtain ⟨s', ho, hm⟩ := hi.1.step hl
  refine ⟨s', ho, fun q x hq hne => ?_⟩
  obtain ⟨hq', hdata⟩ := hm.others q x hq hne
  refine ⟨hq', fun a ha => ?_⟩
  rw [load, load]
  cases he : x.task.proc.pgdir.pte a with
  | none => rfl
  | some e =>
    rw [Option.map_some, Option.map_some, hdata]
    rw [Pcb.pages]
    exact Multiset.mem_add.2 (.inl (mem_pages_of_user (pte_user ha he)))

def oneProcess : St := ⟨manyLeft, fun p => if p = 0 then some ⟨caller, 323, false⟩ else none, 0, []⟩

theorem inv_oneProcess : Inv smallImage oneProcess := by
  have howned : oneProcess.owned = {320} + {321} + {322} + {323} := by
    rw [St.owned, Finset.sum_eq_single 0]
    · rw [show oneProcess.proc 0 = some ⟨caller, 323, false⟩ from rfl, pagesOf_some,
        show caller.proc.pgdir = onePage from rfl, pages_onePage]
      exact add_zero _
    · intro p _ hp
      rw [show oneProcess.proc p = none from if_neg hp]
      rfl
    · exact fun hp => absurd (Finset.mem_univ 0) hp
  have ho := owned_caller
  rw [Owned, show caller.proc.pgdir = onePage from rfl, pages_onePage] at ho
  have hfresh : (323 : Nat) ∉ manyLeft.free + ({320} + {321} + {322}) := by
    intro hm
    rcases Multiset.mem_add.1 hm with hm | hm
    · have hm := (List.mem_range'_1.1 hm).1
      omega
    · revert hm
      decide
  refine ⟨?_, ?_, ?_⟩
  · rw [howned, ← add_assoc, Multiset.nodup_add]
    exact ⟨ho.1, Multiset.nodup_singleton _, Multiset.disjoint_singleton.2 hfresh⟩
  · rw [howned, ← add_assoc]
    intro q hq
    rcases Multiset.mem_add.1 hq with hq | hq
    · exact ho.2 q hq
    · rw [Multiset.mem_singleton.1 hq]
      decide
  · intro p x hx
    simp only [oneProcess] at hx
    split at hx
    · cases hx
      exact exact_onePage
    · cases hx

theorem pages_owned_oneProcess : ∃ s, Exec (step smallImage) legal oneProcess [.call 0 .fork] s ∧
    (s.k.free + s.owned).Nodup ∧ load s.k onePage 0 = some 66 := by
  obtain ⟨-, -, hstep⟩ := pages_owned inv_oneProcess .nil
  obtain ⟨s, ho, hothers⟩ := hstep (.call 0 .fork) trivial
  have hexec : Exec (step smallImage) legal oneProcess [.call 0 .fork] s := Exec.snoc .nil trivial ho
  refine ⟨s, hexec, (pages_owned inv_oneProcess hexec).2.1, ?_⟩
  refine ((hothers 0 ⟨caller, 323, false⟩ rfl nofun).2 0 (by decide)).trans ?_
  rw [load, show caller.proc.pgdir = onePage from rfl, pte_page, at_onePage (by decide)]
  rfl

end Xv6.Vm.System
