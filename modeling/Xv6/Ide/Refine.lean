import Xv6.Ide.Contents

namespace Xv6.Ide
open Lib Function
set_option autoImplicit true

theorem shift_sector {n : UInt32} (h : n.toNat < fsSize) : n >>> 16 = 0 ∧ n >>> 24 = 0 := by
  simp only [fsSize] at h
  constructor <;> apply UInt32.toNat_inj.1 <;>
    simp only [UInt32.toNat_shiftRight, Nat.shiftRight_eq_div_pow, UInt32.reduceToNat,
      Nat.reduceMod, Nat.reducePow] <;> omega

theorem and_one (n : UInt32) : n &&& 1 = 0 ∨ n &&& 1 = 1 := by
  have hmod : (n &&& 1).toNat = n.toNat % 2 := by
    rw [UInt32.toNat_and]
    exact Nat.and_one_is_mod _
  rcases Nat.mod_two_eq_zero_or_one n.toNat with he | he
  · exact .inl (UInt32.toNat_inj.1 (hmod.trans he))
  · exact .inr (UInt32.toNat_inj.1 (hmod.trans he))

theorem toNat_and_ff (n : UInt32) : (n &&& 0xff).toUInt8.toNat = n.toNat % 2 ^ 8 := by
  have hff : (0xff : UInt32).toNat = 2 ^ 8 - 1 := rfl
  rw [UInt32.toNat_toUInt8, UInt32.toNat_and, hff, Nat.and_two_pow_sub_one_eq_mod, Nat.mod_mod]

/-- The sector in the ports is the block, which has one sector. -/
theorem regs_sector {b : Buf} (h : b.blockno.toNat < fsSize) : (regs b).sector = b.blockno.toNat := by
  have hone : b.blockno * UInt32.ofNat sectorPerBlock = b.blockno := UInt32.mul_one _
  obtain ⟨h16, h24⟩ := shift_sector h
  have hhead : (((0xe0 : UInt8) ||| ((b.dev &&& 1) <<< 4).toUInt8 |||
      ((0 : UInt32) &&& 0x0f).toUInt8) &&& 0x0f).toNat = 0 := by
    rcases and_one b.dev with he | he <;> rw [he] <;> rfl
  have hlow := toNat_and_ff b.blockno
  have hmid := toNat_and_ff (b.blockno >>> 8)
  rw [UInt32.toNat_shiftRight, Nat.shiftRight_eq_div_pow] at hmid
  have hhigh : ((0 : UInt32) &&& 0xff).toUInt8.toNat = 0 := rfl
  simp only [regs, Regs.sector, hone, h16, h24, hhead, hlow, hmid, hhigh]
  simp only [fsSize] at h
  simp only [UInt32.reduceToNat, Nat.reduceMod]
  omega

theorem regs_drive {b : Buf} (h : b.blockno.toNat < fsSize) (hd : b.dev = 1) :
    (regs b).drive = true := by
  have hone : b.blockno * UInt32.ofNat sectorPerBlock = b.blockno := UInt32.mul_one _
  simp only [regs, Regs.drive, hone, (shift_sector h).2, hd]
  rfl

def outcomes (disk : Bool → Nat → Block) : List Buf → List Buf
  | [] => []
  | v :: vs => (execute disk v).2 :: outcomes (execute disk v).1 vs

theorem getElem?_outcomes {vs : List Buf} {j : Nat} (hv : vs[j]? = some v) :
    (outcomes disk vs)[j]? = some (execute (disksAfter disk (vs.take j)) v).2 := by
  induction vs generalizing disk j with
  | nil => cases hv
  | cons w vs ih =>
    cases j with
    | zero =>
      cases hv
      rfl
    | succ j => exact ih hv

/-- A request for disk 1, as the in-memory driver executes it. -/
theorem iderw_execute {v : Buf} (hs : v.synced = false) (hd : v.dev = 1)
    (hn : v.blockno.toNat < fsSize) (hsize : fsSize ≤ disksize) (disk : Bool → Nat → Block) :
    Memide.iderw disksize true (disk true) v = .ok ((execute disk v).1 true, (execute disk v).2) := by
  have hsector : (command v).sector = v.blockno.toNat := regs_sector hn
  have hdrive : (command v).drive = true := regs_drive hn hd
  have hrange : ¬ disksize ≤ v.blockno.toNat := by omega
  simp only [Memide.iderw, execute, hsector, hdrive, hs, hd, hrange, Bool.not_true, ne_eq,
    not_true_eq_false, Bool.false_eq_true, if_false]
  cases v.dirty with
  | false => rfl
  | true =>
    simp only [if_true, update_self]

theorem serve_eq {vs : List Buf}
    (h : ∀ v ∈ vs, v.synced = false ∧ v.dev = 1 ∧ v.blockno.toNat < fsSize)
    (hsize : fsSize ≤ disksize) (disk : Bool → Nat → Block) :
    Memide.serve disksize (disk true) vs = .ok (disksAfter disk vs true, outcomes disk vs) := by
  induction vs generalizing disk with
  | nil => rfl
  | cons v vs ih =>
    obtain ⟨hs, hd, hn⟩ := h v List.mem_cons_self
    rw [Memide.serve, iderw_execute hs hd hn hsize disk, ok_bind]
    have hrest := ih (fun w hw => h w (List.mem_cons_of_mem v hw)) (execute disk v).1
    simp only [hrest, ok_bind]
    rfl

structure Good (disk : Bool → Nat → Block) (s : St) : Prop where
  owners : Owners s
  flight : ∃ q tok, Flight s q tok
  content : Content disk s

theorem good_boot (havedisk1 : Bool) (disk : Bool → Nat → Block) : Good disk (boot havedisk1 disk) := by
  refine ⟨⟨?_, nofun, nofun, ?_, nofun⟩, ⟨[], .idle, ⟨rfl, rfl, trivial⟩, ?_, rfl, ?_, ?_, rfl⟩, ?_⟩
  · exact fun _ => ⟨nofun, nofun⟩
  · exact fun j _ hj => absurd hj (Nat.not_lt_zero j)
  · exact ⟨nofun, nofun⟩
  · exact fun _ => ⟨nofun, nofun⟩
  · exact ⟨fun hne => absurd rfl hne, fun hne => absurd rfl hne⟩
  · exact ⟨nofun, nofun, nofun, nofun, rfl, nofun, nofun, nofun, nofun, nofun, nofun⟩

theorem Good.step {s s' : St} (g : Good disk s) (hl : legal s e = true) (ho : step s e = .ok s') :
    Good disk s' := by
  have hm := move_of_step hl ho
  obtain ⟨q, tok, h⟩ := g.flight
  exact ⟨g.owners.step (g.content.sure g.owners) hm, h.step g.owners hm,
    g.content.step h g.owners hm⟩

theorem good_of_exec (hrun : Exec step (fun s e => legal s e) (boot havedisk1 disk) es s) :
    Good disk s :=
  hrun.invariant (good_boot havedisk1 disk) fun _ _ _ g hl ho => g.step hl ho

section
variable {disk : Bool → Nat → Block} {s : St} {q : List Nat} {tok : Tok} {p : Pid}

theorem Flight.dones_le (h : Flight s q tok) (c : Content disk s) :
    s.dones.length ≤ s.executed := by
  have hle : s.dones.length ≤ s.starts.length := by
    rw [h.starts, List.append_assoc, List.length_append]
    exact Nat.le_add_right _ _
  rw [St.executed]
  cases hb : s.hw.busy with
  | none => exact hle
  | some d =>
    have htok : tok = .disk := h.busy.1 (by rw [hb]; rfl)
    obtain ⟨b, v, hl, -⟩ := c.busy d hb
    have hlen := h.starts_length (by rw [htok]; decide) (List.getElem?_eq_some_iff.1 hl).1
    rw [hlen]
    rfl

theorem Content.serve (c : Content disk s) (hdev : ∀ x ∈ s.log, x.2.dev = 1)
    (hsize : fsSize ≤ disksize) :
    Memide.serve disksize (disk true) ((s.log.map Prod.snd).take s.executed) =
      .ok (s.hw.disk true, outcomes disk ((s.log.map Prod.snd).take s.executed)) := by
  rw [c.disks]
  refine serve_eq ?_ hsize disk
  intro v hv
  obtain ⟨j, hj⟩ := List.getElem?_of_mem hv
  rw [List.getElem?_take] at hj
  split at hj
  · next hlt =>
    rw [List.getElem?_map, Option.map_eq_some_iff] at hj
    obtain ⟨⟨b, v⟩, hl, rfl⟩ := hj
    have hstart : j < s.starts.length := Nat.lt_of_lt_of_le hlt (Nat.sub_le _ _)
    exact ⟨c.unsynced j b v hl, hdev _ (List.mem_of_getElem? hl), c.small j b v hstart hl⟩
  · cases hj

theorem Outcome.getElem? (h : Outcome disk s j b w) (hj : j < n) :
    (outcomes disk ((s.log.map Prod.snd).take n))[j]? = some w := by
  obtain ⟨v, hl, rfl⟩ := h
  have hv : ((s.log.map Prod.snd).take n)[j]? = some v := by
    rw [List.getElem?_take, if_pos hj, List.getElem?_map, hl]
    rfl
  rw [getElem?_outcomes hv, List.take_take, Nat.min_eq_left (Nat.le_of_lt hj)]
  rfl

theorem Flight.busy_head (h : Flight s q tok) (c : Content disk s) (hc : s.hw.busy = some d) :
    ∃ b, q.head? = some b ∧ d = command (s.buf b) := by
  have htok : tok ≠ .idle := by
    rw [h.busy.1 (by rw [hc]; rfl)]
    nofun
  have hhand := h.hand_nil htok
  obtain ⟨b, v, hl, rfl⟩ := c.busy d hc
  have hb : s.reqs[s.dones.length]? = some b := by
    rw [St.reqs, List.getElem?_map, hl]
    rfl
  rw [h.reqs, hhand, List.append_nil, List.getElem?_append_right (Nat.le_refl _), Nat.sub_self,
    ← List.head?_eq_getElem?] at hb
  have hmarked : s.owner.marked ≠ some b := by
    intro hm
    cases ho : s.owner with
    | mark b' =>
      rw [ho] at hhand
      cases hhand
    | _ =>
      rw [ho] at hm
      cases hm
  refine ⟨b, hb, ?_⟩
  rw [c.pending _ b v (Nat.le_refl _) hl hmarked]

theorem Flight.one (h : Flight s q tok) (ht : tok ≠ .idle) :
    ∃ k, Counts k Pc.real s.pc ∧ s.hw.busy.isSome.toNat + s.hw.irqs + k = 1 := by
  have hbusy (hne : tok ≠ .disk) : s.hw.busy.isSome = false := by
    rw [Bool.eq_false_iff]
    exact fun hb => hne (h.busy.1 hb)
  have hirqs := h.irqs
  cases tok with
  | idle => exact absurd rfl ht
  | disk =>
    refine ⟨0, counts_zero h.handler.none_false, ?_⟩
    rw [h.busy.2 rfl, hirqs]
    rfl
  | irq =>
    refine ⟨0, counts_zero h.handler.none_false, ?_⟩
    rw [hbusy nofun, hirqs]
    rfl
  | intr p =>
    refine ⟨1, ⟨{p}, fun r => ?_, Finset.card_singleton p⟩, ?_⟩
    · rw [Finset.mem_singleton, ← h.handler r]
      exact ⟨fun he => congrArg some he.symm, fun he => (Option.some.inj he).symm⟩
    · rw [hbusy nofun, hirqs]
      rfl

theorem Flight.working (h : Flight s q tok) (hl : s.idelock = none) (hq : q ≠ []) :
    s.starts = s.dones ++ q.take 1 ∧
      ∃ k, Counts k Pc.real s.pc ∧ s.hw.busy.isSome.toNat + s.hw.irqs + k = 1 := by
  have hown := owner_none hl
  have ht : tok ≠ .idle := by
    apply h.active.2
    rw [hown]
    exact hq
  refine ⟨?_, h.one ht⟩
  rw [h.starts, hown]
  cases tok with
  | idle => exact absurd rfl ht
  | _ => exact congrArg (· ++ q.take 1) (List.append_nil s.dones)

theorem Flight.order (h : Flight s q tok) : s.dones <+: s.starts ∧ s.starts <+: s.reqs := by
  constructor
  · rw [h.starts, List.append_assoc]
    exact List.prefix_append _ _
  · rw [h.starts, h.reqs, List.prefix_append_right_inj]
    cases tok with
    | idle => exact List.nil_prefix
    | _ => exact List.take_prefix 1 q

theorem spurious_unchanged (hp : s.pc p = .idle) (hl : s.idelock = none)
    (hq : s.idequeue = none) :
    runLegal step legal s [.spurious p, .go p, .go p, .go p] = some s := by
  have hback : s = { s with
      idelock := none, idequeue := none, pc := update s.pc p .idle } := by
    rw [← hp, update_eq_self]
    cases s
    cases hl
    cases hq
    rfl
  simp only [runLegal, step, legal, hp, if_true, St.go, St.goto, St.acquire, St.hold, St.release, hl,
    hq, update_self, update_idem, decide_true, or_true]
  rw [← hback]

/-- The owner of the lock is never stuck. -/
theorem Flight.go_on (h : Flight s q tok) (o : Owners s) (hl : s.idelock = some p) :
    s.go p = .error (.panic "incorrect blockno") ∨ ∃ s', s.go p = .ok s' := by
  have hlock := (o.lock p).1 hl
  have hfrom := o.owner_eq rfl hlock
  have hstart (b : Nat) (hidle : tok = .idle) :
      s.idestart b = .error (.panic "incorrect blockno") ∨ s.idestart b = .ok (s.issue b) := by
    rw [St.idestart]
    split
    · exact .inl rfl
    · split
      · next hb =>
        have ht := h.busy.1 hb
        rw [hidle] at ht
        cases ht
      · exact .inr rfl
  cases hp : s.pc p with
  | walk b pp =>
    right
    rw [St.go, hp]
    dsimp only
    split
    · exact ⟨_, rfl⟩
    · exact ⟨_, rfl⟩
  | start b =>
    rw [St.go, hp]
    dsimp only
    split
    · next hq =>
      have htok : tok = .idle := by
        apply h.idle
        rw [hfrom, hp, h.start_eq o hp hq]
        exact fun hne => hne rfl
      rcases hstart b htok with he | he <;> rw [he]
      · exact .inl rfl
      · exact .inr ⟨_, rfl⟩
    · exact .inr ⟨_, rfl⟩
  | test b =>
    right
    rw [St.go, hp]
    dsimp only
    split
    · exact ⟨_, rfl⟩
    · exact ⟨_, rfl⟩
  | release b => exact .inr ⟨_, by rw [St.go, hp]⟩
  | take y =>
    right
    rw [St.go, hp]
    dsimp only
    split
    · exact ⟨_, rfl⟩
    · exact ⟨_, rfl⟩
  | read b =>
    right
    rw [St.go, hp]
    dsimp only
    split
    · exact ⟨_, rfl⟩
    · split
      · next hb =>
        have hidle : tok = .idle := by
          apply h.idle
          rw [hfrom, hp]
          exact id
        have ht := h.busy.1 hb
        rw [hidle] at ht
        cases ht
      · exact ⟨_, rfl⟩
  | mark b => exact .inr ⟨_, by rw [St.go, hp]⟩
  | wake b => exact .inr ⟨_, by rw [St.go, hp]⟩
  | next =>
    rw [St.go, hp]
    dsimp only
    split
    · exact .inr ⟨_, rfl⟩
    · next b _ =>
      have htok : tok = .idle := by
        apply h.idle
        rw [hfrom, hp]
        exact id
      rcases hstart b htok with he | he <;> rw [he]
      · exact .inl rfl
      · exact .inr ⟨_, rfl⟩
  | intrRelease => exact .inr ⟨_, by rw [St.go, hp]⟩
  | _ =>
    rw [hp] at hlock
    cases hlock

theorem Flight.starts_le_succ (h : Flight s q tok) : s.starts.length ≤ s.dones.length + 1 := by
  rw [h.starts, List.append_assoc, List.length_append]
  apply Nat.add_le_add_left
  by_cases ht : tok = .idle
  · rw [ht]
    show (s.owner.hand ++ []).length ≤ 1
    rw [List.append_nil]
    cases s.owner <;> first | exact Nat.zero_le 1 | exact Nat.le_refl 1
  · rw [h.hand_nil ht]
    cases tok with
    | idle => exact absurd rfl ht
    | _ => exact List.length_take_le 1 q

end

/-- The driver completes the requests in the order of its queue, and leaves disk and buffers as the
in-memory driver does. -/
theorem driver_refines_memide (hrun : Exec step (fun s e => legal s e) (boot havedisk1 disk) es s) :
    (∃ q, Chain s.qnext s.idequeue q ∧ s.reqs = s.dones ++ s.owner.hand ++ q ∧
      s.dones <+: s.starts ∧ s.starts <+: s.reqs ∧ s.starts.length ≤ s.dones.length + 1 ∧
      (∀ c, s.hw.busy = some c → ∃ b, q.head? = some b ∧ c = command (s.buf b)) ∧
      (s.idelock = none → q ≠ [] → s.starts = s.dones ++ q.take 1 ∧
        ∃ k, Counts k Pc.real s.pc ∧ s.hw.busy.isSome.toNat + s.hw.irqs + k = 1)) ∧
    (∀ r ∈ s.returns, r.idx < s.dones.length ∧ s.reqs[r.idx]? = some r.buf ∧ r.val.synced = true) ∧
    (∀ p b, s.pc p = .asleep b → s.dones.length ≤ s.mine p ∨ s.owner = .wake b) ∧
    (∀ p, s.idelock = some p →
      s.go p = .error (.panic "incorrect blockno") ∨ ∃ s', s.go p = .ok s') ∧
    (∀ disksize, fsSize ≤ disksize → (∀ x ∈ s.log, x.2.dev = 1) → ∃ outs,
      Memide.serve disksize (disk true) ((s.log.map Prod.snd).take s.executed) =
        .ok (s.hw.disk true, outs) ∧
      s.dones.length ≤ s.executed ∧ s.executed ≤ s.starts.length ∧
      ∀ r ∈ s.returns, outs[r.idx]? = some r.val) ∧
    (∀ p, s.pc p = .idle → s.idelock = none → s.idequeue = none →
      runLegal step legal s [.spurious p, .go p, .go p, .go p] = some s) := by
  obtain ⟨o, ⟨q, tok, h⟩, c⟩ := good_of_exec hrun
  refine ⟨⟨q, h.chain, h.reqs, h.order.1, h.order.2, h.starts_le_succ, ?_, h.working⟩, ?_, ?_, ?_, ?_, ?_⟩
  · exact fun d hd => h.busy_head c hd
  · intro r hr
    obtain ⟨hlt, hout⟩ := c.returns r hr
    obtain ⟨v, hl, -⟩ := id hout
    refine ⟨hlt, ?_, hout.synced⟩
    rw [St.reqs, List.getElem?_map, hl]
    rfl
  · intro p b hp
    rcases Nat.lt_or_ge (s.mine p) s.dones.length with hlt | hle
    · exact .inr (c.asleep p b hp hlt)
    · exact .inl hle
  · exact fun p hl => h.go_on o hl
  · intro disksize hsize hdev
    have hle := h.dones_le c
    refine ⟨_, c.serve hdev hsize, hle, Nat.sub_le _ _, ?_⟩
    intro r hr
    obtain ⟨hlt, hout⟩ := c.returns r hr
    exact hout.getElem? (Nat.lt_of_lt_of_le hlt hle)
  · exact fun p hp hl hq => spurious_unchanged hp hl hq

/-- Process 0 writes a block, process 1 reads it, and process 2 takes the interrupts. -/
def writeReadRun : List Event :=
  [.lock 0 5, .modify 0 5 ⟨false, true, 1, 3, fun _ => 7⟩, .lock 1 6,
    .modify 1 6 ⟨false, false, 1, 3, fun _ => 0⟩, .iderw 0 5, .iderw 1 6] ++
  [.go 0, .go 0, .go 0, .go 0, .go 1, .go 1, .go 1, .go 1, .go 1] ++
  [.disk, .intr 2, .go 2, .go 2, .go 2, .go 2, .go 2, .go 2, .go 2] ++
  [.disk, .intr 2, .go 2, .go 2, .go 2, .go 2, .go 2, .go 2, .go 2] ++
  [.go 0, .go 0, .go 0, .go 1, .go 1, .go 1]

theorem driver_refines_memide_writeReadRun :
    ∃ s outs, runLegal step legal (boot true fun _ _ _ => 0) writeReadRun = some s ∧
      s.reqs = [5, 6] ∧ s.returns.map Ret.idx = [0, 1] ∧
      Memide.serve fsSize (fun _ _ => 0) ((s.log.map Prod.snd).take 2) = .ok (s.hw.disk true, outs) ∧
      ∀ r ∈ s.returns, outs[r.idx]? = some r.val := by
  have h := exec_of_runLegal step legal (boot true fun _ _ _ => 0) writeReadRun rfl
  obtain ⟨outs, hserve, -, -, hret⟩ :=
    (driver_refines_memide h).2.2.2.2.1 fsSize (Nat.le_refl _) (by decide)
  exact ⟨_, outs, rfl, rfl, rfl, hserve, hret⟩

end Xv6.Ide
