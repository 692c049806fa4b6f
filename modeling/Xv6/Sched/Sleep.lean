import Xv6.Sched.Flow

namespace Xv6.Sched
open Lib Proc
set_option autoImplicit true

/-- A process not executed is at its saved context, `p->chan` is set before `p->state`, and slots
that a `wakeup` has passed do not sleep on its channel. -/
structure Sleeps (s : St) : Prop where
  on : ∀ p, s.pc p ≠ .off → ∃ c, s.spc c = .away p
  lives : ∀ p, (place s p).started = true → alive (s.t.state p) = true
  chan : ∀ p ch l, s.pc p = .sleepState ch l → s.t.chan p = some ch
  swept : ∀ c ch j, (s.spc c).scans s.pc = some (ch, j) →
    ∀ i : Slot, i.val < j → ¬sleeping s ch i

theorem sleeps_boot (ticks : UInt32) : Sleeps (boot ticks) := by
  constructor
  · exact fun p hp => absurd rfl hp
  · exact fun p hp => by cases hp
  · exact nofun
  · exact nofun

section Step
variable {s s' : St} {c : Cpu} {a : Act}

theorem Sleeps.off (h : Inv s) (hz : Sleeps s) (hc : (s.spc c).claims = some p)
    (ha : s.spc c ≠ .away p) : s.pc p = .off := by
  by_contra hp
  obtain ⟨d, hd⟩ := hz.on p hp
  obtain rfl := h.unique c d p hc (by rw [hd]; rfl)
  exact ha hd

theorem Sleeps.place_other (h : Inv s) (hz : Sleeps s) (ht : Tick c a s s')
    (hq : s.spc c ≠ .away q) :
    place s' q = place s q ∨ s.t.state q = .unused ∧ place s' q = .resume .forkret := by
  rcases ht.other q hq with ⟨hp, -, hctx⟩ | ⟨hs, -, hp⟩
  · by_cases hoff : s.pc q = .off
    · rw [place_off hoff, place_off (hp.trans hoff)]
      exact hctx.imp (congrArg _) (And.imp_right (congrArg _))
    · rw [place_eq hp hoff, place_eq rfl hoff]
      exact .inl rfl
  · have hoff := hz.off h (by rw [hs]; rfl) hq
    rw [place_off hoff, place_eq hp nofun]
    exact .inl rfl

theorem Tick.pc_executing (h : Inv s) (ht : Tick c a s s') (hd : s.spc d = .away q)
    (hne : d ≠ c) : s'.pc q = s.pc q := by
  have hq : s.spc c ≠ .away q := fun hc => hne (h.away_unique hd hc)
  rcases ht.other q hq with ⟨hp, -⟩ | ⟨hs, -⟩
  · exact hp
  · exact absurd (h.unique d c q (by rw [hd]; rfl) (by rw [hs]; rfl)) hne

theorem held_scans (hs : (s.spc c).scans s.pc = some x) : held s c = true := by
  unfold held
  unfold SPc.scans at hs
  split at hs
  · next p hp =>
    unfold Pc.scans at hs
    split at hs
    · next hw =>
      rw [hp, SPc.holds, hw]
      rfl
    · cases hs
  · next hi =>
    rw [hi]
    rfl
  · cases hs

theorem Sleeps.step (h : Inv s) (hz : Sleeps s) (ht : Tick c a s s') : Sleeps s' := by
  constructor
  · intro p hp
    by_cases hc : s.spc c = .away p
    · rcases ht.stays p hc with ⟨hc', -⟩ | ⟨-, hoff⟩
      · exact ⟨c, hc'⟩
      · exact absurd hoff hp
    · rcases ht.other p hc with ⟨he, -⟩ | ⟨-, hc', -⟩
      · rw [he] at hp
        obtain ⟨d, hd⟩ := hz.on p hp
        have hdc : d ≠ c := by
          rintro rfl
          exact hc hd
        exact ⟨d, (ht.spc d hdc).trans hd⟩
      · exact ⟨c, hc'⟩
  · intro p hp
    by_cases hc : s.spc c = .away p
    · rcases ht.parked p hc hp with ha | ⟨⟨k, hk⟩, he⟩
      · exact ha
      · rw [he]
        apply hz.lives
        obtain ⟨t, hf, -⟩ := ht.flow p hc
        rw [place_eq hk nofun]
        rw [hk] at hf
        generalize place s' p = y at hf hp
        cases hf
        cases k <;> first | rfl | cases hp
    · rcases hz.place_other h ht hc with he | ⟨-, he⟩
      · rw [he] at hp
        exact ht.lives p hc (hz.lives p hp)
      · rw [he] at hp
        cases hp
  · intro p ch l hp
    by_cases hc : s.spc c = .away p
    · exact ht.noted p ch l hc hp
    · rw [ht.chan p hc]
      rcases ht.other p hc with ⟨he, -⟩ | ⟨-, -, he⟩
      · exact hz.chan p ch l (he ▸ hp)
      · cases he.symm.trans hp
  · intro d ch j hs i hi hsl
    by_cases hdc : d = c
    · subst hdc
      cases j with
      | zero => cases hi
      | succ j =>
        obtain ⟨hs', hj⟩ := ht.scan ch j hs
        rcases Nat.lt_succ_iff_lt_or_eq.1 hi with hlt | heq
        · rcases ht.sleep i ch hsl with hsl' | ⟨hd, ⟨ch', l, hp⟩, -⟩
          · exact hz.swept d ch j hs' i hlt hsl'
          · rw [hd, SPc.scans, hp] at hs'
            cases hs'
        · exact hj i heq hsl
    · have hs' : (s.spc d).scans s.pc = some (ch, j) := by
        rw [ht.spc d hdc] at hs
        cases hx : s.spc d with
        | away q =>
          rw [hx, SPc.scans, ht.pc_executing h hx hdc] at hs
          exact hs
        | intr ch' w =>
          rw [hx] at hs
          cases w <;> exact hs
        | _ =>
          rw [hx] at hs
          cases hs
      rcases ht.sleep i ch hsl with hsl' | ⟨hc, ⟨ch', l, hp⟩, -⟩
      · exact hz.swept d ch j hs' i hi hsl'
      · have hheld : held s c = true := by
          rw [held_away hc, hp]
          rfl
        exact hdc (h.lock.unique (held_scans hs') hheld)

/-- The process is in `sleep(ch, lk)`, on its way to SLEEPING. -/
def Pc.sleepsOn (ch : Chan) : Pc → Bool
  | .sleepLock ch' _ => ch' = ch
  | .sleepUnlock ch' _ => ch' = ch
  | .sleepChan ch' _ => ch' = ch
  | .sleepState ch' _ => ch' = ch
  | _ => false

/-- Process `p` sleeps on `ch` or is about to. -/
def pending (s : St) (ch : Chan) (p : Slot) : Prop :=
  sleeping s ch p ∨ (s.pc p).sleepsOn ch = true

theorem Sleeps.pending_step (hz : Sleeps s) (ht : Tick c a s s')
    (hp : pending s' (.addr n) q) :
    pending s (.addr n) q ∨ s.spc c = .away q ∧ s.pc q = .point .run ∧
      ∃ b, a = .call (.sleep (.addr n) b) := by
  rcases hp with hs | hs
  · rcases ht.sleep q _ hs with hs' | ⟨hc, ⟨ch, l, hp⟩, hch⟩
    · exact .inl (.inl hs')
    · have he := hz.chan q ch l hp
      refine .inl (.inr ?_)
      rw [hp]
      exact decide_eq_true (Option.some.inj (he.symm.trans hch))
  · by_cases hc : s.spc c = .away q
    · obtain ⟨t, hf, -⟩ := ht.flow q hc
      have hoff : s'.pc q ≠ .off := by
        intro he
        rw [he] at hs
        cases hs
      rw [place_eq rfl hoff] at hf
      unfold pending
      generalize s.pc q = x at hf
      generalize s'.pc q = y at hf hs
      cases hf <;> first
        | exact .inl (.inr hs)
        | cases hs
        | exact .inr ⟨hc, rfl, _, by rw [of_decide_eq_true hs]⟩
    · rcases ht.other q hc with ⟨he, -⟩ | ⟨-, -, he⟩
      · rw [he] at hs
        exact .inl (.inr hs)
      · rw [he] at hs
        cases hs

/-- After the loop of a `wakeup`, no process sleeps on its channel or is about to. -/
theorem Sleeps.swept_none (h : Inv s) (hz : Sleeps s) (hc : s.spc c = .away k)
    (hk : s.pc k = .wake ch (.scan j) x) (hj : ¬j < nProc)
    (hlock : ∀ p b, s.pc p = .sleepLock ch b ∨ s.pc p = .sleepUnlock ch b → s.spc c = .away p)
    (p : Slot) : ¬pending s ch p := by
  have hscan : (s.spc c).scans s.pc = some (ch, j) := by
    rw [hc, SPc.scans, hk]
    rfl
  have hne (hp : s.spc c = .away p) (hs : (s.pc p).sleepsOn ch = true) : False := by
    cases hc.symm.trans hp
    rw [hk] at hs
    cases hs
  rintro (hs | hs)
  · exact hz.swept c ch j hscan p (Nat.lt_of_lt_of_le p.isLt (Nat.le_of_not_lt hj)) hs
  · have hholds (hp : (s.pc p).holds = true) : s.spc c = .away p := by
      obtain ⟨d, hd⟩ := hz.on p (by rintro he; rw [he] at hs; cases hs)
      have hheld : held s d = true := by
        rw [held_away hd, hp]
      rw [h.lock.unique (held_scans hscan) hheld]
      exact hd
    apply hne _ hs
    unfold Pc.sleepsOn at hs
    split at hs
    · next b hp =>
      rw [of_decide_eq_true hs] at hp
      exact hlock p b (.inl hp)
    · next b hp =>
      rw [of_decide_eq_true hs] at hp
      exact hlock p b (.inr hp)
    · next hp => exact hholds (by rw [hp]; rfl)
    · next hp => exact hholds (by rw [hp]; rfl)
    · cases hs

end Step

end Xv6.Sched
