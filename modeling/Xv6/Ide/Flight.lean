import Xv6.Ide.Queue

namespace Xv6.Ide
open Lib
set_option autoImplicit true

/-- Whether the controller has been given the head of the queue. -/
def Pc.active (q : List Nat) : Pc → Prop
  | .start b => q ≠ [b]
  | .read _ | .mark _ | .wake _ | .next => False
  | _ => q ≠ []

/-- A handler that was called for a completed command. -/
def Pc.real : Pc → Bool
  | .intrAcquire false | .take false => true
  | _ => false

/-- Where the command in flight is: nowhere, in the controller, an interrupt, or its handler. -/
inductive Tok where
  | idle
  | disk
  | irq
  | intr (p : Pid)
  deriving DecidableEq

def Tok.handler : Tok → Option Pid
  | .intr p => some p
  | _ => none

/-- The requests of which the controller has the command. -/
def Tok.begun (q : List Nat) : Tok → List Nat
  | .idle => []
  | _ => q.take 1

/-- The controller works on the head of the queue. -/
structure Flight (s : St) (q : List Nat) (tok : Tok) : Prop extends Line s q where
  busy : s.hw.busy.isSome = true ↔ tok = .disk
  irqs : s.hw.irqs = if tok = .irq then 1 else 0
  handler : Tracks tok.handler Pc.real s.pc
  active : tok ≠ .idle ↔ s.owner.active q
  starts : s.starts = s.dones ++ s.owner.hand ++ tok.begun q

section
variable {s s' : St} {p : Pid} {q : List Nat} {tok : Tok}

theorem Flight.idle (h : Flight s q tok) (ha : ¬ s.owner.active q) : tok = .idle := by
  by_contra hne
  exact ha (h.active.1 hne)

theorem Flight.keep (h : Flight s q tok) (s' : St) (hchain : Chain s'.qnext s'.idequeue q)
    (hreqs : s'.reqs = s.reqs) (hdones : s'.dones ++ s'.owner.hand = s.dones ++ s.owner.hand)
    (hfits : s'.owner.Fits s' q) (hhw : s'.hw = s.hw) (hreal : ∀ p, (s'.pc p).real = (s.pc p).real)
    (hactive : s'.owner.active q ↔ s.owner.active q) (hstarts : s'.starts = s.starts) :
    Flight s' q tok := by
  refine ⟨h.goto hchain hreqs hdones hfits, ?_, ?_, ?_, ?_, ?_⟩
  · rw [hhw]
    exact h.busy
  · rw [hhw]
    exact h.irqs
  · exact h.handler.congr hreal
  · rw [hactive]
    exact h.active
  · rw [hstarts, hdones]
    exact h.starts

theorem Pc.Fits.congr {x : Pc} (h : x.Fits s q) (hq : s'.qnext = s.qnext) : x.Fits s' q := by
  cases x with
  | walk b pp =>
    refine ⟨?_, h.2⟩
    rw [hq]
    exact h.1
  | _ => exact h

theorem Flight.other (h : Flight s q tok) (o : Owners s) (hp : s.pc p = y)
    (hy : y.locked = false) (hx : x.real = y.real) : Flight (s.goto p x) q tok := by
  have hown := o.owner_other hp hy x
  subst hp
  refine h.keep (s.goto p x) h.chain rfl ?_ ?_ rfl (proj_update Pc.real s.pc hx) ?_ rfl
  · rw [hown]
    rfl
  · rw [hown]
    exact h.fits.congr rfl
  · rw [hown]

theorem Flight.hold (h : Flight s q tok) (hl : s.idelock = none) (hp : s.pc p = y)
    (hchain : Chain g s.idequeue q) (hx : x.real = y.real) (hhand : x.hand = []) (hactive : x.active q ↔ q ≠ [])
    (hfits : x.Fits { s with qnext := g } q) :
    Flight ({ s with qnext := g }.hold p x) q tok := by
  subst hp
  have hown := owner_hold { s with qnext := g } p x
  have hnone := owner_none hl
  refine h.keep ({ s with qnext := g }.hold p x) hchain rfl ?_ ?_ rfl
    (proj_update Pc.real s.pc hx) ?_ rfl
  · rw [hown, hnone, hhand]
    rfl
  · rw [hown]
    exact hfits.congr rfl
  · rw [hown, hnone]
    exact hactive

theorem Flight.own (h : Flight s q tok) (o : Owners s) (hp : s.pc p = y)
    (hy : y.locked = true) (hx : x.real = y.real) (hhand : x.hand = y.hand) (hactive : x.active q ↔ y.active q)
    (hfits : x.Fits s q) : Flight ({ s with buf := f }.goto p x) q tok := by
  have hown : ({ s with buf := f }.goto p x).owner = x := owner_goto (o.idelock_eq hp hy) x
  have hfrom := o.owner_eq hp hy
  subst hp
  refine h.keep ({ s with buf := f }.goto p x) h.chain rfl ?_ ?_ rfl
    (proj_update Pc.real s.pc hx) ?_ rfl
  · rw [hown, hfrom, hhand]
    rfl
  · rw [hown]
    exact hfits.congr rfl
  · rw [hown, hfrom]
    exact hactive

theorem Flight.release (h : Flight s q tok) (o : Owners s) (hp : s.pc p = y)
    (hy : y.locked = true) (hx : x.real = y.real) (hhand : y.hand = [])
    (hactive : y.active q ↔ q ≠ []) :
    Flight ({ s with returns := l }.release p x) q tok := by
  have hown : ({ s with returns := l }.release p x).owner = .idle := rfl
  have hfrom := o.owner_eq hp hy
  subst hp
  refine h.keep ({ s with returns := l }.release p x) h.chain rfl ?_ ?_ rfl
    (proj_update Pc.real s.pc hx) ?_ rfl
  · rw [hown, hfrom, hhand]
    rfl
  · rw [hown]
    exact trivial
  · rw [hown, hfrom]
    exact hactive.symm

theorem Flight.aside (h : Flight s q tok) : Flight { s with holder := g, buf := f } q tok :=
  h.keep _ h.chain rfl rfl (h.fits.congr rfl) rfl (fun _ => rfl) Iff.rfl rfl

theorem Flight.disk (h : Flight s q tok) (hc : s.hw.busy = some c) :
    Flight { s with hw := s.hw.complete c } q .irq := by
  have htok : tok = .disk := h.busy.1 (by rw [hc]; rfl)
  subst htok
  have hbusy : (s.hw.complete c).busy = none := by
    rw [Hw.complete]
    split <;> rfl
  have hirqs : (s.hw.complete c).irqs = s.hw.irqs + 1 := by
    rw [Hw.complete]
    split <;> rfl
  refine ⟨⟨h.chain, h.reqs, h.fits.congr rfl⟩, ?_, ?_, h.handler, ?_, h.starts⟩
  · show (s.hw.complete c).busy.isSome = true ↔ _
    rw [hbusy]
    exact ⟨nofun, nofun⟩
  · show (s.hw.complete c).irqs = _
    rw [hirqs, h.irqs]
    rfl
  · exact ⟨fun _ => h.active.1 nofun, fun _ => nofun⟩

theorem Flight.intr (h : Flight s q tok) (o : Owners s) (hp : s.pc p = .idle)
    (hi : s.hw.irqs ≠ 0) :
    Flight ({ s with hw := { s.hw with irqs := s.hw.irqs - 1 } }.goto p (.intrAcquire false)) q
      (.intr p) := by
  have htok : tok = .irq := by
    by_contra hne
    rw [h.irqs, if_neg hne] at hi
    exact hi rfl
  subst htok
  have hown : ({ s with hw := { s.hw with irqs := s.hw.irqs - 1 } }.goto p
      (.intrAcquire false)).owner = s.owner :=
    o.aside.owner_other hp rfl _
  refine ⟨⟨h.chain, ?_, ?_⟩, ?_, ?_, h.handler.take rfl, ?_, ?_⟩
  · rw [hown]
    exact h.reqs
  · rw [hown]
    exact h.fits.congr rfl
  · exact ⟨fun hb => absurd (h.busy.1 hb) nofun, nofun⟩
  · show s.hw.irqs - 1 = _
    rw [h.irqs]
    rfl
  · rw [hown]
    exact ⟨fun _ => h.active.1 nofun, fun _ => nofun⟩
  · rw [hown]
    exact h.starts

theorem Flight.head_eq (h : Flight s q tok) (hq : s.idequeue = some b) : ∃ r, q = b :: r := by
  have hhead := h.chain.head
  rw [hq] at hhead
  exact List.head?_eq_some_iff.1 hhead.symm

theorem Flight.nil_of_none (h : Flight s q tok) (hq : s.idequeue = none) : q = [] := by
  have hhead := h.chain.head
  rw [hq] at hhead
  exact List.head?_eq_none_iff.1 hhead.symm

theorem Flight.chain_append (h : Flight s q tok) (o : Owners s) (hp : s.pc p = .walk b pp)
    (hd : s.deref pp = none) : Chain (s.store b pp).qnext (s.store b pp).idequeue (q ++ [b]) := by
  have hfits := h.fits
  rw [o.owner_eq hp rfl] at hfits
  obtain ⟨hlast, hmem⟩ := hfits
  have hb : b ∉ q := by
    intro hb
    exact h.not_asked o (p := p) (by rw [hp]; rfl) (List.mem_append_right _ hb)
  cases pp with
  | none =>
    obtain rfl := h.nil_of_none hd
    exact ⟨rfl, hlast⟩
  | some y =>
    rcases h.chain.next_mem (hmem y rfl) with ⟨z, -, hz⟩ | ⟨-, r, rfl⟩
    · cases hd.symm.trans hz
    · exact h.chain.snoc ((List.nodup_append.1 (h.nodup o)).2.1) hb hlast

theorem Tok.begun_append (h : tok ≠ .idle → q ≠ []) : tok.begun (q ++ [b]) = tok.begun q := by
  cases q with
  | nil =>
    have hidle : tok = .idle := by
      by_contra hne
      exact h hne rfl
    rw [hidle]
    rfl
  | cons a q => cases tok <;> rfl

theorem Flight.append (h : Flight s q tok) (o : Owners s) (hp : s.pc p = .walk b pp)
    (hd : s.deref pp = none) :
    Flight (((s.store b pp).record p b).goto p (.start b)) (q ++ [b]) tok := by
  have hfrom := o.owner_eq hp rfl
  have hchain := h.chain_append o hp hd
  obtain ⟨g, l, he⟩ := store_frame s b pp
  rw [he] at hchain ⊢
  have hown : (({ s with qnext := g, idequeue := l }.record p b).goto p (.start b)).owner = .start b :=
    owner_goto (s := { s with qnext := g, idequeue := l }.record p b) (o.idelock_eq hp rfl) _
  have hact := h.active
  rw [hfrom] at hact
  refine ⟨⟨hchain, ?_, ?_⟩, h.busy, h.irqs, h.handler.keep hp rfl, ?_, ?_⟩
  · refine (reqs_append _ p b).trans ?_
    rw [hown]
    change s.reqs ++ [b] = s.dones ++ [] ++ (q ++ [b])
    rw [h.reqs, hfrom, List.append_assoc]
    rfl
  · rw [hown]
    exact ⟨q, rfl⟩
  · rw [hown, hact]
    cases q with
    | nil => exact ⟨fun hne => absurd rfl hne, fun hne => absurd rfl hne⟩
    | cons a q => exact ⟨fun _ => by simp [Pc.active], fun _ => nofun⟩
  · rw [hown, Tok.begun_append hact.1]
    change s.starts = _
    rw [h.starts, hfrom]
    rfl

theorem Flight.issue (h : Flight s (b :: q) .idle) (o : Owners s) (hp : s.pc p = y)
    (hy : y.locked = true) (hx : x.real = y.real) (hhand : y.hand = []) (hhand' : x.hand = [])
    (hactive : x.active (b :: q)) (hfits : x.Fits s (b :: q)) :
    Flight ((s.issue b).goto p x) (b :: q) .disk := by
  have hown : ((s.issue b).goto p x).owner = x := owner_goto (o.idelock_eq hp hy) x
  have hfrom := o.owner_eq hp hy
  have hreqs := h.reqs
  have hstarts := h.starts
  rw [hfrom, hhand] at hreqs hstarts
  refine ⟨⟨h.chain, ?_, ?_⟩, ?_, h.irqs, h.handler.keep hp hx, ?_, ?_⟩
  · rw [hown, hhand']
    exact hreqs
  · rw [hown]
    exact hfits.congr rfl
  · exact ⟨fun _ => rfl, fun _ => rfl⟩
  · rw [hown]
    exact ⟨fun _ => hactive, fun _ => nofun⟩
  · rw [hown, hhand']
    show s.starts ++ [b] = _
    rw [hstarts, List.append_nil]
    rfl

theorem Flight.start_eq (h : Flight s q tok) (o : Owners s) (hp : s.pc p = .start b)
    (hq : s.idequeue = some b) : q = [b] := by
  have hfits := h.fits
  rw [o.owner_eq hp rfl] at hfits
  obtain ⟨r, rfl⟩ := hfits
  cases r with
  | nil => rfl
  | cons a r =>
    obtain ⟨t, ht⟩ := h.head_eq hq
    have hnd := (List.nodup_append.1 (h.nodup o)).2.1
    rw [ht] at hnd
    cases ht
    exact absurd (by simp) (List.nodup_cons.1 hnd).1

theorem Flight.start (h : Flight s q tok) (o : Owners s) (hp : s.pc p = .start b)
    (hq : s.idequeue = some b) : Flight ((s.issue b).goto p (.test b)) q .disk := by
  obtain rfl := h.start_eq o hp hq
  have htok : tok = .idle := by
    apply h.idle
    rw [o.owner_eq hp rfl]
    exact fun hne => hne rfl
  subst htok
  exact h.issue o hp rfl rfl rfl rfl nofun trivial

theorem Flight.queued (h : Flight s q tok) (o : Owners s) (hp : s.pc p = .start b)
    (hq : s.idequeue ≠ some b) : Flight (s.goto p (.test b)) q tok := by
  have hfits := h.fits
  rw [o.owner_eq hp rfl] at hfits
  obtain ⟨r, rfl⟩ := hfits
  refine h.own o hp rfl rfl rfl ?_ trivial
  refine ⟨fun _ he => ?_, fun _ => List.append_ne_nil_of_right_ne_nil _ (List.cons_ne_nil _ _)⟩
  have hhead := h.chain.head
  rw [he] at hhead
  exact hq hhead

theorem Flight.empty (h : Flight s q tok) (o : Owners s) (hp : s.pc p = .take y)
    (hq : s.idequeue = none) : Flight (s.goto p .intrRelease) q tok := by
  obtain rfl := h.nil_of_none hq
  have hact := h.active
  rw [o.owner_eq hp rfl] at hact
  have hidle : tok = .idle := by
    by_contra hne
    exact hact.1 hne rfl
  have hy : y = true := by
    by_contra hne
    have hreal := (h.handler p).2 (by rw [hp, Bool.eq_false_iff.2 hne]; rfl)
    rw [hidle] at hreal
    cases hreal
  subst hy
  exact h.own o hp rfl rfl rfl Iff.rfl trivial

theorem Flight.take (h : Flight s q tok) (o : Owners s) (hp : s.pc p = .take y)
    (hq : s.idequeue = some b) :
    ∃ r, q = b :: r ∧ tok = .intr p ∧
      Flight ({ s with idequeue := s.qnext b }.goto p (.read b)) r .idle := by
  have hfrom := o.owner_eq hp rfl
  obtain ⟨r, rfl⟩ := h.head_eq hq
  have hy : y = false := by
    have hfits := h.fits
    rw [hfrom] at hfits
    cases y with
    | false => rfl
    | true => cases hfits rfl
  subst hy
  have hreal : (s.pc p).real = true := by
    rw [hp]
    rfl
  have htok : tok = .intr p := by
    have hh := (h.handler p).2 hreal
    cases tok with
    | intr r =>
      cases hh
      rfl
    | _ => cases hh
  have hown : ({ s with idequeue := s.qnext b }.goto p (.read b)).owner = .read b :=
    owner_goto (s := { s with idequeue := s.qnext b }) (o.idelock_eq hp rfl) _
  have hreqs := h.reqs
  have hstarts := h.starts
  rw [hfrom] at hreqs hstarts
  subst htok
  refine ⟨r, rfl, rfl, ⟨h.chain.2, ?_, ?_⟩, ?_, ?_, ?_, ?_, ?_⟩
  · rw [hown]
    show s.reqs = _
    rw [hreqs, List.append_assoc, List.append_assoc]
    rfl
  · rw [hown]
    exact trivial
  · exact ⟨fun hb => absurd (h.busy.1 hb) nofun, nofun⟩
  · exact h.irqs
  · exact h.handler.drop rfl hreal rfl
  · rw [hown]
    exact ⟨fun hne => absurd rfl hne, False.elim⟩
  · rw [hown]
    show s.starts = s.dones ++ [b] ++ []
    rw [hstarts, List.append_nil]
    exact congrArg (· ++ [b]) (List.append_nil s.dones)

theorem Flight.mark (h : Flight s q tok) (o : Owners s) (hp : s.pc p = .mark b) :
    Flight ((s.finish b).goto p (.wake b)) q tok := by
  have hown : ((s.finish b).goto p (.wake b)).owner = .wake b :=
    owner_goto (s := s.finish b) (o.idelock_eq hp rfl) _
  have hfrom := o.owner_eq hp rfl
  refine h.keep _ h.chain rfl ?_ ?_ rfl (proj_update Pc.real s.pc (by rw [hp]; rfl)) ?_ rfl
  · rw [hown, hfrom]
    exact List.append_nil _
  · rw [hown]
    exact trivial
  · rw [hown, hfrom]
    exact Iff.rfl

theorem real_wakeup (s : St) (b : Nat) (p : Pid) :
    ((s.wakeup b).pc p).real = (s.pc p).real := by
  simp only [St.wakeup]
  split
  · next hp =>
    rw [hp]
    rfl
  · rfl

theorem Flight.wake (h : Flight s q tok) (o : Owners s) (hp : s.pc p = .wake b) :
    Flight ((s.wakeup b).goto p .next) q tok := by
  have hown : ((s.wakeup b).goto p .next).owner = .next :=
    owner_goto (s := s.wakeup b) (o.idelock_eq hp rfl) _
  have hfrom := o.owner_eq hp rfl
  refine h.keep _ h.chain rfl ?_ ?_ rfl ?_ ?_ rfl
  · rw [hown, hfrom]
    rfl
  · rw [hown]
    exact trivial
  · intro r
    rw [← real_wakeup s b r]
    refine proj_update Pc.real (s.wakeup b).pc ?_ r
    rw [real_wakeup, hp]
    rfl
  · rw [hown, hfrom]
    exact Iff.rfl

theorem Flight.last (h : Flight s q tok) (o : Owners s) (hp : s.pc p = .next)
    (hq : s.idequeue = none) : Flight (s.goto p .intrRelease) q tok := by
  obtain rfl := h.nil_of_none hq
  refine h.own o hp rfl rfl rfl ?_ trivial
  exact ⟨fun hne => absurd rfl hne, False.elim⟩

theorem Flight.next (h : Flight s q tok) (o : Owners s) (hp : s.pc p = .next)
    (hq : s.idequeue = some b) : Flight ((s.issue b).goto p .intrRelease) q .disk := by
  obtain ⟨r, rfl⟩ := h.head_eq hq
  have htok : tok = .idle := by
    apply h.idle
    rw [o.owner_eq hp rfl]
    exact id
  subst htok
  exact h.issue o hp rfl rfl rfl rfl nofun trivial

/-- The queue stays in order, with at most one command in flight. -/
theorem Flight.step (h : Flight s q tok) (o : Owners s) (hm : Move s s') :
    ∃ q' tok', Flight s' q' tok' := by
  cases hm with
  | lock _ => exact ⟨q, tok, h.aside⟩
  | modify _ _ => exact ⟨q, tok, h.aside⟩
  | unlock _ _ => exact ⟨q, tok, h.aside⟩
  | iderw hp _ _ => exact ⟨q, tok, h.other o hp rfl rfl⟩
  | awake hp => exact ⟨q, tok, h.other o hp rfl rfl⟩
  | disk hc => exact ⟨q, .irq, h.disk hc⟩
  | @intr p hp hi => exact ⟨q, .intr p, h.intr o hp hi⟩
  | spurious hp => exact ⟨q, tok, h.other o hp rfl rfl⟩
  | @acquire p b hp hl =>
    have hb : b ∉ q := by
      intro hb
      exact h.not_asked o (p := p) (by rw [hp]; rfl) (List.mem_append_right _ hb)
    exact ⟨q, tok, h.hold hl hp (h.chain.update hb) rfl rfl Iff.rfl
      ⟨Function.update_self .., nofun⟩⟩
  | @walk p b pp y hp hy =>
    refine ⟨q, tok, h.own o hp rfl rfl rfl Iff.rfl ?_⟩
    have hfits := h.fits
    rw [o.owner_eq hp rfl] at hfits
    refine ⟨hfits.1, ?_⟩
    rintro z ⟨⟩
    cases pp with
    | none =>
      obtain ⟨r, rfl⟩ := h.head_eq hy
      exact List.mem_cons_self
    | some x =>
      rcases h.chain.next_mem (hfits.2 x rfl) with ⟨z, hz, hx⟩ | ⟨hx, -⟩
      · cases hx.symm.trans hy
        exact hz
      · cases hx.symm.trans hy
  | append hp hd => exact ⟨_, tok, h.append o hp hd⟩
  | start hp hq _ _ => exact ⟨q, .disk, h.start o hp hq⟩
  | queued hp hq => exact ⟨q, tok, h.queued o hp hq⟩
  | sleep hp _ => exact ⟨q, tok, h.release o hp rfl rfl rfl Iff.rfl⟩
  | synced hp _ => exact ⟨q, tok, h.own o hp rfl rfl rfl Iff.rfl trivial⟩
  | reacquire hp hl =>
    exact ⟨q, tok, h.hold hl hp h.chain rfl rfl Iff.rfl trivial⟩
  | ret hp => exact ⟨q, tok, h.release o hp rfl rfl rfl Iff.rfl⟩
  | @intrAcquire p y hp hl hy =>
    refine ⟨q, tok, h.hold hl hp h.chain (by cases y <;> rfl) rfl Iff.rfl ?_⟩
    intro hyt
    exact h.nil_of_none (hy hyt)
  | empty hp hq => exact ⟨q, tok, h.empty o hp hq⟩
  | take hp hq =>
    obtain ⟨r, -, -, hr⟩ := h.take o hp hq
    exact ⟨r, .idle, hr⟩
  | written hp _ => exact ⟨q, tok, h.own o hp rfl rfl rfl Iff.rfl trivial⟩
  | insl hp _ => exact ⟨q, tok, h.own o hp rfl rfl rfl Iff.rfl trivial⟩
  | mark hp => exact ⟨q, tok, h.mark o hp⟩
  | wake hp => exact ⟨q, tok, h.wake o hp⟩
  | last hp hq => exact ⟨q, tok, h.last o hp hq⟩
  | next hp hq _ _ => exact ⟨q, .disk, h.next o hp hq⟩
  | intrRelease hp => exact ⟨q, tok, h.release o hp rfl rfl rfl Iff.rfl⟩

end

end Xv6.Ide
