import Xv6.Pipes.Machine

namespace Xv6.Pipes
open Lib Proc Sched Function
set_option autoImplicit true

theorem pipeSize_dvd : pipeSize ∣ 2 ^ 32 := by
  decide

/-- The bytes stored are those taken and those in the buffer. -/
structure Fifo (s : St) : Prop where
  bound : ahead s.pipe.nread s.pipe.nwrite ≤ pipeSize
  order : s.stored.map Prod.snd = s.taken ++ s.pipe.contents

theorem Pipe.full_iff {p : Pipe} : p.full = true ↔ ahead p.nread p.nwrite = pipeSize := by
  rw [Pipe.full, decide_eq_true_iff]
  exact eq_add_iff p.nread p.nwrite (n := pipeSize) (by decide)

theorem Pipe.empty_iff {p : Pipe} : p.empty = true ↔ ahead p.nread p.nwrite = 0 := by
  rw [Pipe.empty, decide_eq_true_iff, ahead_eq_zero]
  exact eq_comm

theorem Pipe.ahead_put {p : Pipe} (h : ahead p.nread p.nwrite ≤ pipeSize) (b : UInt8) :
    ahead (p.put b).nread (p.put b).nwrite = ahead p.nread p.nwrite + 1 :=
  ahead_succ (Nat.lt_of_le_of_lt (Nat.succ_le_succ h) (by decide))

theorem Pipe.contents_put {p : Pipe} (h : ahead p.nread p.nwrite < pipeSize) (b : UInt8) :
    (p.put b).contents = p.contents ++ [b] := by
  have hs : slot pipeSize p.nwrite =
      slot pipeSize (p.nread + UInt32.ofNat (ahead p.nread p.nwrite)) := by
    rw [add_ahead]
  rw [Pipe.contents, Pipe.ahead_put h.le, Pipe.contents, ← window_push pipeSize_dvd _ _ h, ← hs]
  rfl

theorem Pipe.ahead_get {p : Pipe} (h : p.empty = false) :
    ahead p.get.nread p.get.nwrite + 1 = ahead p.nread p.nwrite := by
  have hpos : 0 < ahead p.nread p.nwrite := by
    rw [Nat.pos_iff_ne_zero, Ne, ← Pipe.empty_iff, h]
    nofun
  have hs : ahead p.get.nread p.get.nwrite = ahead p.nread p.nwrite - 1 := ahead_succ_left hpos
  omega

theorem Pipe.contents_get {p : Pipe} (h : p.empty = false) :
    p.contents = p.front :: p.get.contents := by
  rw [Pipe.contents, ← Pipe.ahead_get h]
  rfl

theorem Fifo.put (h : Fifo s) (hf : s.pipe.full = false) (call : Nat) (b : UInt8) :
    Fifo { s with pipe := s.pipe.put b, stored := s.stored ++ [(call, b)] } := by
  have hlt : ahead s.pipe.nread s.pipe.nwrite < pipeSize := by
    refine Nat.lt_of_le_of_ne h.bound fun he => ?_
    rw [Pipe.full_iff.2 he] at hf
    cases hf
  constructor
  · rw [Pipe.ahead_put h.bound]
    exact hlt
  · simp [h.order, Pipe.contents_put hlt]

theorem Fifo.get (h : Fifo s) (he : s.pipe.empty = false) :
    Fifo { s with pipe := s.pipe.get, taken := s.taken ++ [s.pipe.front] } := by
  constructor
  · have := Pipe.ahead_get he
    have := h.bound
    dsimp only
    omega
  · rw [h.order, Pipe.contents_get he]
    simp

theorem Fifo.exec (h : Fifo s) (a : Nat) (killed : Bool) (x : Phase) :
    Fifo (exec a s killed x).1 := by
  cases x with
  | write call addr i =>
    simp only [Pipes.exec, pipewrite]
    split
    · split
      · split
        · exact h
        · exact h
      · next hf => exact h.put (Bool.not_eq_true _ ▸ hf) call _
    · exact h
  | read n =>
    simp only [Pipes.exec, piperead]
    split
    · split
      · exact h
      · exact h
    · exact h
  | readCopy n got =>
    simp only [Pipes.exec, copy]
    split
    · next he => exact h.get he.2
    · exact h
  | readDone n got => exact ⟨h.bound, h.order⟩
  | close writable =>
    simp only [Pipes.exec, pipeclose]
    split
    · exact ⟨h.bound, h.order⟩
    · exact ⟨h.bound, h.order⟩
  | _ => exact h

/-- Call, buffer and bytes stored of a process in `pipewrite`. -/
def Phase.writing : Phase → Option (Nat × List UInt8 × Nat)
  | .write call addr i => some (call, addr, i)
  | .writeFull call addr i => some (call, addr, i)
  | .writeSleep call addr i => some (call, addr, i)
  | _ => none

def bytes (stored : List (Nat × UInt8)) (call : Nat) : List UInt8 :=
  (stored.filter (·.1 = call)).map Prod.snd

/-- Each call of `pipewrite` stores its bytes in their order. -/
structure Writes (writes : List (List UInt8)) (stored : List (Nat × UInt8))
    (phase : Slot → Option Phase) : Prop where
  writing : ∀ p x call addr i, phase p = some x → x.writing = some (call, addr, i) →
    writes[call]? = some addr ∧ bytes stored call = addr.take i
  distinct : ∀ p q x y call addr addr' i i', phase p = some x → phase q = some y →
    x.writing = some (call, addr, i) → y.writing = some (call, addr', i') → p = q
  calls : ∀ call addr, writes[call]? = some addr → bytes stored call <+: addr
  fresh : ∀ call, writes.length ≤ call → bytes stored call = []

theorem Writes.move (h : Writes writes stored phase)
    (ho : ∀ y, o = some y → y.writing = none ∨ ∃ x, phase p = some x ∧ y.writing = x.writing) :
    Writes writes stored (update phase p o) := by
  have hmove (q : Slot) (y : Phase) (w : Nat × List UInt8 × Nat)
      (hq : update phase p o q = some y) (hw : y.writing = some w) :
      ∃ z, phase q = some z ∧ z.writing = some w := by
    by_cases hqp : q = p
    · subst hqp
      rw [update_self] at hq
      rcases ho y hq with hn | ⟨x, hx, he⟩
      · cases hn.symm.trans hw
      · exact ⟨x, hx, he.symm.trans hw⟩
    · rw [update_of_ne hqp] at hq
      exact ⟨y, hq, hw⟩
  constructor
  · intro q y call addr i hq hw
    obtain ⟨z, hz, hw'⟩ := hmove q y _ hq hw
    exact h.writing q z call addr i hz hw'
  · intro q r y z call addr addr' i i' hq hr hy hz
    obtain ⟨y', hq', hy'⟩ := hmove q y _ hq hy
    obtain ⟨z', hr', hz'⟩ := hmove r z _ hr hz
    exact h.distinct q r y' z' call addr addr' i i' hq' hr' hy' hz'
  · exact h.calls
  · exact h.fresh

theorem bytes_append (stored : List (Nat × UInt8)) (call call' : Nat) (b : UInt8) :
    bytes (stored ++ [(call, b)]) call' =
      if call = call' then bytes stored call' ++ [b] else bytes stored call' := by
  unfold bytes
  rw [List.filter_append]
  split
  · next h => simp [h]
  · next h => simp [h]

theorem Writes.store (h : Writes writes stored phase) (hx : phase p = some x)
    (hw : x.writing = some (call, addr, i)) (hb : addr[i]? = some b)
    (hy : y.writing = some (call, addr, i + 1)) :
    Writes writes (stored ++ [(call, b)]) (update phase p (some y)) := by
  obtain ⟨hcall, htake⟩ := h.writing p x call addr i hx hw
  have hnext : bytes (stored ++ [(call, b)]) call = addr.take (i + 1) := by
    rw [bytes_append, if_pos rfl, htake, List.take_add_one, hb]
    rfl
  constructor
  · intro q z call' addr' i' hq hz
    by_cases hqp : q = p
    · subst hqp
      rw [update_self] at hq
      cases hq
      cases hy.symm.trans hz
      exact ⟨hcall, hnext⟩
    · rw [update_of_ne hqp] at hq
      have hne : call ≠ call' := by
        rintro rfl
        exact hqp (h.distinct q p z x call addr' addr i' i hq hx hz hw)
      rw [bytes_append, if_neg hne]
      exact h.writing q z call' addr' i' hq hz
  · intro q r z z' call' addr' addr'' i' i'' hq hr hz hz'
    have hpast (q : Slot) (z : Phase) (addr' : List UInt8) (i' : Nat)
        (hq : update phase p (some y) q = some z)
        (hz : z.writing = some (call', addr', i')) :
        ∃ v addr'' i'', phase q = some v ∧ v.writing = some (call', addr'', i'') := by
      by_cases hqp : q = p
      · subst hqp
        rw [update_self] at hq
        cases hq
        cases hy.symm.trans hz
        exact ⟨x, addr, i, hx, hw⟩
      · rw [update_of_ne hqp] at hq
        exact ⟨z, addr', i', hq, hz⟩
    obtain ⟨v, _, _, hv, hvw⟩ := hpast q z addr' i' hq hz
    obtain ⟨u, _, _, hu, huw⟩ := hpast r z' addr'' i'' hr hz'
    exact h.distinct q r v u call' _ _ _ _ hv hu hvw huw
  · intro call' addr' hcall'
    by_cases hne : call = call'
    · subst hne
      cases hcall.symm.trans hcall'
      rw [hnext]
      exact List.take_prefix ..
    · rw [bytes_append, if_neg hne]
      exact h.calls call' addr' hcall'
  · intro call' hcall'
    have hne : call ≠ call' := by
      rintro rfl
      rw [List.getElem?_eq_none hcall'] at hcall
      cases hcall
    rw [bytes_append, if_neg hne]
    exact h.fresh call' hcall'

theorem Writes.start (h : Writes writes stored phase) (hx : phase p = none)
    (hy : y.writing = some (writes.length, addr, 0)) :
    Writes (writes ++ [addr]) stored (update phase p (some y)) := by
  have hlt (q : Slot) (z : Phase) (call : Nat) (addr' : List UInt8) (i : Nat)
      (hq : phase q = some z) (hz : z.writing = some (call, addr', i)) : call < writes.length := by
    by_contra hge
    have hcall := (h.writing q z call addr' i hq hz).1
    rw [List.getElem?_eq_none (Nat.le_of_not_lt hge)] at hcall
    cases hcall
  constructor
  · intro q z call addr' i hq hz
    by_cases hqp : q = p
    · subst hqp
      rw [update_self] at hq
      cases hq
      cases hy.symm.trans hz
      exact ⟨by simp, h.fresh _ (Nat.le_refl _)⟩
    · rw [update_of_ne hqp] at hq
      obtain ⟨hcall, hb⟩ := h.writing q z call addr' i hq hz
      refine ⟨?_, hb⟩
      rw [List.getElem?_append_left (hlt q z call addr' i hq hz)]
      exact hcall
  · intro q r z z' call addr' addr'' i i' hq hr hz hz'
    by_cases hqp : q = p
    · by_cases hrp : r = p
      · rw [hqp, hrp]
      · subst hqp
        rw [update_self] at hq
        rw [update_of_ne hrp] at hr
        cases hq
        cases hy.symm.trans hz
        exact absurd (hlt r z' _ _ _ hr hz') (Nat.lt_irrefl _)
    · rw [update_of_ne hqp] at hq
      by_cases hrp : r = p
      · subst hrp
        rw [update_self] at hr
        cases hr
        cases hy.symm.trans hz'
        exact absurd (hlt q z _ _ _ hq hz) (Nat.lt_irrefl _)
      · rw [update_of_ne hrp] at hr
        exact h.distinct q r z z' call addr' addr'' i i' hq hr hz hz'
  · intro call addr' hcall
    by_cases hlt' : call < writes.length
    · rw [List.getElem?_append_left hlt'] at hcall
      exact h.calls call addr' hcall
    · rw [h.fresh call (Nat.le_of_not_lt hlt')]
      exact List.nil_prefix
  · intro call hcall
    rw [List.length_append] at hcall
    exact h.fresh call (by omega)

theorem Writes.exec (h : Writes s.writes s.stored phase) (hx : phase p = some x) (a : Nat)
    (killed : Bool) :
    Writes (exec a s killed x).1.writes (exec a s killed x).1.stored
      (update phase p (exec a s killed x).2.next) := by
  cases x with
  | write call addr i =>
    unfold Pipes.exec pipewrite
    dsimp only
    split
    · next b hb =>
      split
      · split
        · exact h.move nofun
        · refine h.move fun y hy => ?_
          cases hy
          exact .inr ⟨_, hx, rfl⟩
      · exact h.store hx rfl hb rfl
    · refine h.move fun y hy => ?_
      cases hy
      exact .inl rfl
  | read n =>
    unfold Pipes.exec piperead
    dsimp only
    split
    · split
      · exact h.move nofun
      · refine h.move fun y hy => ?_
        cases hy
        exact .inl rfl
    · refine h.move fun y hy => ?_
      cases hy
      exact .inl rfl
  | readCopy n got =>
    unfold Pipes.exec copy
    dsimp only
    split <;>
    · refine h.move fun y hy => ?_
      cases hy
      exact .inl rfl
  | close writable =>
    unfold Pipes.exec pipeclose
    dsimp only
    split <;>
    · refine h.move fun y hy => ?_
      cases hy
      exact .inl rfl
  | writeDone addr => exact h.move nofun
  | readDone n got => exact h.move nofun
  | closeDone writable => exact h.move nofun
  | writeFull call addr i =>
    refine h.move fun y hy => ?_
    cases hy
    exact .inr ⟨_, hx, rfl⟩
  | writeSleep call addr i =>
    refine h.move fun y hy => ?_
    cases hy
    exact .inr ⟨_, hx, rfl⟩
  | readSleep n =>
    refine h.move fun y hy => ?_
    cases hy
    exact .inl rfl

def Phase.copied : Phase → Option (List UInt8)
  | .readCopy _ got => some got
  | .readDone _ got => some got
  | _ => none

theorem Phase.copied_of_rests {x : Phase} (h : x.rests = true) : x.copied = none := by
  cases x <;> first | rfl | cases h

/-- The bytes taken are those returned, and those of the `piperead` under way. -/
structure Reads (taken : List UInt8) (reads : List (List UInt8)) (phase : Slot → Option Phase) :
    Prop where
  copied : ∀ p x got, phase p = some x → x.copied = some got → reads.flatten ++ got = taken
  returned : (∀ p x, phase p = some x → x.copied = none) → reads.flatten = taken

theorem reads_iff (hq : ∀ q, q ≠ p → ∀ y, phase q = some y → y.copied = none) :
    Reads taken reads phase ↔
      reads.flatten ++ ((phase p).bind Phase.copied).getD [] = taken := by
  constructor
  · intro h
    cases hx : phase p with
    | none =>
      rw [Option.bind_none, Option.getD_none, List.append_nil]
      refine h.returned fun q y hy => hq q ?_ y hy
      rintro rfl
      cases hx.symm.trans hy
    | some x =>
      rw [Option.bind_some]
      cases hc : x.copied with
      | none =>
        rw [Option.getD_none, List.append_nil]
        refine h.returned fun q y hy => ?_
        by_cases hqp : q = p
        · rw [hqp, hx] at hy
          cases hy
          exact hc
        · exact hq q hqp y hy
      | some got => exact h.copied p x got hx hc
  · intro h
    constructor
    · intro q x got hx hc
      by_cases hqp : q = p
      · rw [← hqp, hx, Option.bind_some, hc] at h
        exact h
      · cases (hq q hqp x hx).symm.trans hc
    · intro hnone
      have hp : (phase p).bind Phase.copied = none := by
        cases hx : phase p with
        | none => rfl
        | some x => exact hnone p x hx
      rwa [hp, Option.getD_none, List.append_nil] at h

/-- Why a `piperead` ends without a byte. -/
def Ended (pipe : Pipe) : Phase → Prop
  | .readCopy _ got => got = [] → pipe.empty = false ∨ pipe.writeopen = false
  | .readDone n got => got = [] → 0 < n → pipe.empty = true ∧ pipe.writeopen = false
  | _ => True

theorem ended_of_rests (h : x.rests = true) : Ended pipe x := by
  cases x <;> trivial

theorem exec_read (a : Nat) (s : St) (killed : Bool) (x : Phase)
    (h : s.reads.flatten ++ x.copied.getD [] = s.taken) (he : Ended s.pipe x) :
    (exec a s killed x).1.reads.flatten ++
        ((exec a s killed x).2.next.bind Phase.copied).getD [] = (exec a s killed x).1.taken ∧
      ∀ y, (exec a s killed x).2.next = some y → Ended (exec a s killed x).1.pipe y := by
  cases x with
  | write call addr i =>
    unfold exec pipewrite
    dsimp only
    split
    · split
      · split <;> exact ⟨h, fun y hy => by cases hy <;> trivial⟩
      · exact ⟨h, fun y hy => by cases hy; trivial⟩
    · exact ⟨h, fun y hy => by cases hy; trivial⟩
  | read n =>
    unfold exec piperead
    dsimp only
    split
    · split <;> exact ⟨h, fun y hy => by cases hy <;> trivial⟩
    · next hc =>
      refine ⟨h, fun y hy => ?_⟩
      cases hy
      intro _
      rw [Bool.and_eq_true, not_and_or, Bool.not_eq_true, Bool.not_eq_true] at hc
      exact hc
  | readCopy n got =>
    unfold exec copy
    dsimp only
    split
    · refine ⟨?_, fun y hy => ?_⟩
      · simp only [Out.next, Option.bind_some, Phase.copied, Option.getD_some]
        rw [← List.append_assoc]
        exact congrArg (· ++ _) h
      · cases hy
        intro hn
        cases (List.append_eq_nil_iff.1 hn).2
    · next hc =>
      refine ⟨h, fun y hy => ?_⟩
      cases hy
      intro hn hpos
      have hempty : s.pipe.empty = true := by
        rw [hn, List.length_nil, not_and] at hc
        exact Bool.not_eq_false _ ▸ hc hpos
      refine ⟨hempty, (he hn).resolve_left ?_⟩
      rw [hempty]
      decide
  | readDone n got =>
    refine ⟨?_, fun y hy => by cases hy⟩
    simp only [exec, Out.next, Option.bind_none, Option.getD_none, List.append_nil,
      List.flatten_append, List.flatten_singleton]
    exact h
  | close writable =>
    unfold exec pipeclose
    dsimp only
    split <;> exact ⟨h, fun y hy => by cases hy; trivial⟩
  | writeDone addr => exact ⟨h, fun y hy => by cases hy⟩
  | closeDone writable => exact ⟨h, fun y hy => by cases hy⟩
  | writeFull call addr i => exact ⟨h, fun y hy => by cases hy; trivial⟩
  | writeSleep call addr i => exact ⟨h, fun y hy => by cases hy; trivial⟩
  | readSleep n => exact ⟨h, fun y hy => by cases hy; trivial⟩

structure Inv (a : Nat) (s : Mst St Phase) : Prop where
  mon : Mon (code a) s
  fifo : Fifo s.data
  writes : Writes s.data.writes s.data.stored s.phase
  reads : Reads s.data.taken s.data.reads s.phase
  ended : ∀ p x, s.phase p = some x → Ended s.data.pipe x

theorem inv_boot (a : Nat) (ticks : UInt32) : Inv a (boot ticks) where
  mon := mon_boot ..
  fifo := ⟨(ahead_self 0).trans_le (Nat.zero_le _), by simp [boot, Code.boot, pipealloc, Pipe.contents, window]⟩
  writes := ⟨nofun, nofun, nofun, fun _ _ => rfl⟩
  reads := ⟨nofun, fun _ => rfl⟩
  ended := nofun

def OthersRest (phase : Slot → Option Phase) (p : Slot) : Prop :=
  ∀ q, q ≠ p → ∀ y, phase q = some y → y.rests = true

theorem OthersRest.update (h : OthersRest phase p) (o : Option Phase) :
    OthersRest (update phase p o) p := by
  intro q hq y hy
  rw [update_of_ne hq] at hy
  exact h q hq y hy

theorem OthersRest.reads_iff (h : OthersRest phase p) :
    Reads taken reads phase ↔
      reads.flatten ++ ((phase p).bind Phase.copied).getD [] = taken :=
  Pipes.reads_iff fun q hq y hy => Phase.copied_of_rests (h q hq y hy)

theorem OthersRest.ended (h : OthersRest phase p) (he : ∀ y, phase p = some y → Ended pipe y)
    (q : Slot) (y : Phase) (hy : phase q = some y) : Ended pipe y := by
  by_cases hq : q = p
  · subst hq
    exact he y hy
  · exact ended_of_rests (h q hq y hy)

theorem Inv.move (hm : Mon (code a) s') (hrest : OthersRest phase p)
    (hph : s'.phase = update phase p o) (hfifo : Fifo s'.data)
    (hwrites : Writes s'.data.writes s'.data.stored s'.phase)
    (hreads : s'.data.reads.flatten ++ (o.bind Phase.copied).getD [] = s'.data.taken)
    (hended : ∀ y, o = some y → Ended s'.data.pipe y) : Inv a s' := by
  have hrest' := hrest.update o
  rw [← hph] at hrest'
  have hself : s'.phase p = o := by
    rw [hph, update_self]
  refine ⟨hm, hfifo, hwrites, ?_, hrest'.ended fun y hy => hended y (hself.symm.trans hy)⟩
  rw [hrest'.reads_iff, hself]
  exact hreads

theorem Inv.enter (h : Inv a s) (hx : s.phase p = none)
    (hrest : ∀ q y, s.phase q = some y → y.rests = true) (he : enter s.data i = some (d, x)) :
    Fifo d ∧ Writes d.writes d.stored (update s.phase p (some x)) ∧
      d.reads.flatten ++ x.copied.getD [] = d.taken ∧ Ended d.pipe x := by
  have hmove (hw : x.writing = none) :
      Writes s.data.writes s.data.stored (update s.phase p (some x)) := by
    refine h.writes.move fun y hy => ?_
    cases hy
    exact .inl hw
  have hreads := h.reads.returned fun q y hy => Phase.copied_of_rests (hrest q y hy)
  rw [← List.append_nil s.data.reads.flatten] at hreads
  cases i with
  | write addr =>
    cases he
    exact ⟨⟨h.fifo.bound, h.fifo.order⟩, h.writes.start hx rfl, hreads, trivial⟩
  | read n =>
    cases he
    exact ⟨h.fifo, hmove rfl, hreads, trivial⟩
  | close writable =>
    cases he
    exact ⟨h.fifo, hmove rfl, hreads, trivial⟩
  | go => cases he

theorem Inv.step (h : Inv a s) (ho : (code a).step s e = .ok s') : Inv a s' := by
  obtain ⟨c, e⟩ := e
  have hmon := h.mon.step ho
  rcases Code.step_cases ho with ⟨b, k', -, -, -, rfl⟩ |
    ⟨i, p, x, d, k', -, hc, hp, hx, he, hk, rfl⟩ | ⟨i, p, x, d, o, k', -, hc, hp, hx, hr, -, rfl⟩
  · exact ⟨hmon, h.fifo, h.writes, h.reads, h.ended⟩
  · have hrest (q : Slot) (y : Phase) (hy : s.phase q = some y) : y.rests = true :=
      h.mon.all_rest (h.mon.enter_free hc hp hk) hy
    obtain ⟨hfifo, hwrites, hreads, hended⟩ := h.enter hx hrest he
    refine .move hmon (fun q _ => hrest q) rfl hfifo hwrites hreads fun y hy => ?_
    cases hy
    exact hended
  · have hrest : OthersRest s.phase p := fun q hq y hy => h.mon.others_rest hc hp hx hq hy
    have hrun : exec a s.data (s.k.t.killed p) x = (d, o) := by
      cases i <;> first | exact Option.some.inj hr | cases hr
    have hcopy := hrest.reads_iff.1 h.reads
    rw [hx] at hcopy
    obtain ⟨hreads, hended⟩ := exec_read a s.data (s.k.t.killed p) x hcopy (h.ended p x hx)
    have hfifo := h.fifo.exec a (s.k.t.killed p) x
    have hwrites := h.writes.exec hx a (s.k.t.killed p)
    rw [hrun] at hreads hended hfifo hwrites
    exact .move hmon hrest rfl hfifo hwrites hreads hended

theorem inv_exec (h : Exec (code a).step legal (boot ticks) es s) : Inv a s :=
  h.invariant (inv_boot a ticks) fun _ _ _ hi _ ho => hi.step ho

def Phase.reading : Phase → Option Nat
  | .read n => some n
  | .readSleep n => some n
  | .readCopy n _ => some n
  | .readDone n _ => some n
  | _ => none

/-- In any interleaving, the bytes taken and in the buffer are those stored, the bytes returned are
those taken, each `pipewrite` stores a first part of its bytes, and `piperead` returns 0 only at the
end. -/
theorem lossless_fifo (h : Exec (code a).step (fun _ _ => True) (boot ticks) es s) :
    ahead s.data.pipe.nread s.data.pipe.nwrite ≤ pipeSize ∧
    s.data.stored.map Prod.snd = s.data.taken ++ s.data.pipe.contents ∧
    ((s.k.lock (.other a) = none → s.data.reads.flatten = s.data.taken) ∧
      ∀ p n got, s.phase p = some (.readCopy n got) ∨ s.phase p = some (.readDone n got) →
        s.data.reads.flatten ++ got = s.data.taken) ∧
    (∀ call addr, s.data.writes[call]? = some addr → bytes s.data.stored call <+: addr) ∧
    ∀ p x n killed, s.phase p = some x → x.reading = some n → 0 < n →
      (exec a s.data killed x).2 = .leave 0 →
        s.data.pipe.empty = true ∧ s.data.pipe.writeopen = false := by
  have hi := inv_exec h
  refine ⟨hi.fifo.bound, hi.fifo.order, ⟨fun hl => ?_, ?_⟩, hi.writes.calls, ?_⟩
  · exact hi.reads.returned fun p x hx => Phase.copied_of_rests (hi.mon.all_rest hl hx)
  · rintro p n got (hx | hx)
    · exact hi.reads.copied p _ got hx rfl
    · exact hi.reads.copied p _ got hx rfl
  · intro p x n killed hx hn hpos hret
    have he := hi.ended p x hx
    cases x with
    | read m =>
      simp only [exec, piperead] at hret
      split at hret
      · split at hret <;> cases hret
      · cases hret
    | readCopy m got =>
      simp only [exec, copy] at hret
      split at hret <;> cases hret
    | readDone m got =>
      cases hn
      refine he (List.length_eq_zero_iff.1 ?_) hpos
      simpa [exec] using hret
    | _ => cases hn <;> cases hret

def goes (c : Cpu) (n : Nat) : List (Cpu × Event Input) :=
  List.replicate n (c, .sys .go)

def does (c : Cpu) (l : List Input) : List (Cpu × Event Input) :=
  l.map fun i => (c, .code i)

def drainRun : List (Cpu × Event Input) :=
  goes 0 7 ++ does 0 [.write [104, 105], .go, .go, .go] ++ goes 0 67 ++
  does 0 [.go, .close true, .go] ++ goes 0 67 ++
  does 0 [.go, .read 3, .go, .go, .go, .go] ++ goes 0 67 ++ does 0 [.go, .read 1, .go, .go]

theorem lossless_fifo_drainRun : ∃ s,
    Exec (code 0).step (fun _ _ => True) (boot 0) drainRun s ∧
      s.data.reads = [[104, 105]] ∧ s.data.writes = [[104, 105]] ∧
      bytes s.data.stored 0 <+: [104, 105] ∧ s.phase 0 = some (.readDone 1 []) ∧
      s.data.pipe.empty = true ∧ s.data.pipe.writeopen = false := by
  obtain ⟨s, hr, hs⟩ := (Option.any_eq_true _ _).1
    (show (runLegal (code 0).step (fun _ _ => true) (boot 0) drainRun).any
      (fun s => s.data.reads = [[104, 105]] ∧ s.data.writes = [[104, 105]] ∧
        s.phase 0 = some (.readDone 1 [])) = true by decide +kernel)
  obtain ⟨hreads, hwrites, hx⟩ := of_decide_eq_true hs
  have he : Exec (code 0).step (fun _ _ => True) (boot 0) drainRun s :=
    (exec_of_runLegal (code 0).step (fun _ _ => true) _ drainRun hr).mono fun _ _ _ => trivial
  obtain ⟨-, -, -, hcalls, hend⟩ := lossless_fifo he
  exact ⟨s, he, hreads, hwrites, hcalls 0 _ (by rw [hwrites]; rfl), hx,
    hend 0 _ 1 false hx rfl (by decide) rfl⟩

end Xv6.Pipes
