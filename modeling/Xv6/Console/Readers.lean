import Xv6.Console.Editor
import Xv6.Lib.Exec

namespace Xv6.Console
open Lib
set_option autoImplicit true

/-- A call of `consoleread`: the bytes it still wants, asked for, and has stored. -/
structure Reader where
  n : Nat
  target : Nat
  dst : List UInt8

/-- The console and the calls of `consoleread`, with the bytes committed, consumed, and stored by
each finished call. -/
structure St where
  input : Input
  reader : Pid → Option Reader
  committed : List UInt8
  consumed : List UInt8
  returned : List (Pid × List UInt8 × Int)

inductive Event where
  | intr (xs : List UInt8)
  | read (p : Pid) (n : Nat)
  | go (p : Pid) (killed : Bool)

def start (behind : Nat → UInt8) : St where
  input := boot behind
  reader _ := none
  committed := []
  consumed := []
  returned := []

/-- The bytes that `w` moves over are committed. -/
def St.advance (s : St) (input : Input) : St :=
  { s with
    input := input
    committed := s.committed ++ window input.buf s.input.w (ahead s.input.w input.w) }

def St.act (s : St) (a : Action) : Except Fault St := do
  let input ← Console.act s.input a
  .ok (s.advance input)

def St.finish (s : St) (p : Pid) (k : Reader) (result : Int) : St :=
  { s with
    reader := Function.update s.reader p none
    returned := s.returned ++ [(p, k.dst, result)] }

/-- `input.buf[input.r++ % INPUT_BUF]`. -/
def St.take (s : St) : St :=
  { s with
    input := { s.input with r := s.input.r + 1 }
    consumed := s.consumed ++ [s.input.buf (slot inputBuf s.input.r)] }

/-- A round of `consoleread`, until it sleeps, goes round again or returns. -/
def consoleread (s : St) (p : Pid) (k : Reader) (killed : Bool) : St :=
  if k.n = 0 then s.finish p k (k.target - k.n)
  else if s.input.r = s.input.w then
    if killed then s.finish p k (-1) else s
  else
    let c := s.input.buf (slot inputBuf s.input.r)
    if c = ctrl 'D' then
      if k.n < k.target then s.finish p k (k.target - k.n)
      else s.take.finish p k (k.target - k.n)
    else
      let k := { k with n := k.n - 1, dst := k.dst ++ [c] }
      if c = nl then s.take.finish p k (k.target - k.n)
      else { s.take with reader := Function.update s.reader p (some k) }

def step (s : St) : Event → Except Fault St
  | .intr xs => (actions xs).foldlM St.act s
  | .read p n => .ok { s with reader := Function.update s.reader p (some ⟨n, n, []⟩) }
  | .go p killed =>
    match s.reader p with
    | some k => .ok (consoleread s p k killed)
    | none => .error .blocked

/-- A process is in one call at a time, and no `TAB` is typed. -/
def legal (s : St) : Event → Bool
  | .intr xs => tab ∉ xs
  | .read p _ => (s.reader p).isNone
  | .go p _ => (s.reader p).isSome

/-- A round of `consoleread` takes nothing, or the first byte that is ready. -/
inductive Consumes (s s' : St) : Prop where
  | nothing : s'.input = s.input → s'.consumed = s.consumed → s'.committed = s.committed →
      Consumes s s'
  | front : s.input.editor = ⟨b :: q, l⟩ → s'.input.editor = ⟨q, l⟩ →
      s'.input.histPos = s.input.histPos → s'.input.histCount = s.input.histCount →
      s'.consumed = s.consumed ++ [b] → s'.committed = s.committed → Consumes s s'

structure Inv (s : St) : Prop where
  fits : Fits s.input.editor
  browses : Browses s.input
  order : s.committed = s.consumed ++ s.input.editor.q

theorem editor_take (s : St) (h : s.input.r ≠ s.input.w) :
    s.input.editor =
      ⟨s.input.buf (slot inputBuf s.input.r) :: s.take.input.editor.q, s.take.input.editor.l⟩ := by
  have hpos : 0 < ahead s.input.r s.input.w :=
    Nat.pos_of_ne_zero (mt ahead_eq_zero.1 (Ne.symm h))
  have hn : ahead s.input.r s.input.w = ahead (s.input.r + 1) s.input.w + 1 := by
    rw [ahead_succ_left hpos]
    omega
  simp only [Input.editor, St.take, hn, window]

theorem consumes_take (h : s.input.r ≠ s.input.w) (hi : s'.input = s.take.input)
    (hc : s'.consumed = s.take.consumed) (hm : s'.committed = s.committed) : Consumes s s' := by
  apply Consumes.front (editor_take s h)
  · rw [hi]
  · rw [hi]
    rfl
  · rw [hi]
    rfl
  · exact hc
  · exact hm

theorem consoleread_consumes (s : St) (p : Pid) (k : Reader) (killed : Bool) :
    Consumes s (consoleread s p k killed) := by
  rw [consoleread]
  split
  · exact .nothing rfl rfl rfl
  · split
    · split
      · exact .nothing rfl rfl rfl
      · exact .nothing rfl rfl rfl
    · next hr =>
      dsimp only
      split
      · split
        · exact .nothing rfl rfl rfl
        · exact consumes_take hr rfl rfl rfl
      · split
        · exact consumes_take hr rfl rfl rfl
        · exact consumes_take hr rfl rfl rfl

theorem ready_append (h : Round s a s') :
    s'.editor.q = s.editor.q ++ window s'.buf s.w (ahead s.w s'.w) := by
  have hpre := h.editor.ready
  simp only [Input.editor, h.r] at hpre ⊢
  have hlen := hpre.length_le
  rw [window_length, window_length] at hlen
  rw [ahead_between hlen, window_append, add_ahead] at hpre ⊢
  have hsame := List.prefix_of_prefix_length_le hpre (List.prefix_append _ _) (by simp)
  rw [hsame.eq_of_length (by simp)]

theorem Inv.act (h : Inv s) (ha : a ≠ .key tab) :
    ∃ input, Console.act s.input a = .ok input ∧ Round s.input a input ∧
      Inv (s.advance input) := by
  obtain ⟨input, hi, hround⟩ := act_round (s.input.held_eq ▸ h.fits.size) h.browses ha
  refine ⟨input, hi, hround, ?_⟩
  constructor
  · exact h.fits.allows hround.editor
  · exact hround.browses
  · show s.committed ++ _ = s.consumed ++ input.editor.q
    rw [ready_append hround, ← List.append_assoc, ← h.order]

/-- `s'` is left by the rounds `as` of `consoleintr`. -/
structure Rounds (s : St) (as : List Action) (s' : St) : Prop where
  step : as.foldlM St.act s = .ok s'
  input : as.foldlM Console.act s.input = .ok s'.input
  editor : s.input.editor.Runs as s'.input.editor
  consumed : s'.consumed = s.consumed

theorem Inv.rounds {as : List Action} (h : Inv s) (ha : Action.key tab ∉ as) :
    ∃ s', Rounds s as s' ∧ Inv s' := by
  induction as generalizing s with
  | nil => exact ⟨s, ⟨rfl, rfl, .nil, rfl⟩, h⟩
  | cons a as ih =>
    rw [List.mem_cons, not_or] at ha
    obtain ⟨input, hi, hround, hinv⟩ := h.act (Ne.symm ha.1)
    obtain ⟨s', hs, hinv'⟩ := ih hinv ha.2
    have hact : s.act a = .ok (s.advance input) := by
      rw [St.act, hi]
      rfl
    refine ⟨s', ?_, hinv'⟩
    constructor
    · rw [List.foldlM_cons, hact]
      exact hs.step
    · rw [List.foldlM_cons, hi]
      exact hs.input
    · exact .cons hround.editor hs.editor
    · exact hs.consumed

theorem mem_of_key (h : Action.key c ∈ actions xs) : c ∈ xs := by
  fun_induction actions xs with
  | case1 => cases h
  | case2 => cases h
  | case3 => cases h
  | case4 cs ih =>
    cases h with
    | tail _ h => exact .tail _ (.tail _ (.tail _ (ih h)))
  | case5 cs _ ih =>
    cases h with
    | tail _ h => exact .tail _ (.tail _ (.tail _ (ih h)))
  | case6 c2 cs _ _ ih => exact .tail _ (.tail _ (.tail _ (ih h)))
  | case7 c1 cs _ ih => exact .tail _ (.tail _ (ih h))
  | case8 c cs _ ih =>
    cases h with
    | head => exact .head _
    | tail _ h => exact .tail _ (ih h)

theorem Inv.consumes (h : Inv s) (hc : Consumes s s') : Inv s' := by
  cases hc with
  | nothing hi hc hm =>
    constructor
    · rw [hi]
      exact h.fits
    · rw [hi]
      exact h.browses
    · rw [hm, hc, hi, h.order]
  | front hd hd' hpos hcount hc hm =>
    have hfits := h.fits
    have horder := h.order
    rw [hd] at hfits horder
    constructor
    · rw [hd']
      exact hfits.front
    · exact ⟨hpos ▸ h.browses.low, hpos ▸ hcount ▸ h.browses.high⟩
    · rw [hm, hc, hd', horder]
      simp

theorem Inv.step (h : Inv s) (hl : legal s e) (ho : step s e = .ok s') : Inv s' := by
  cases e with
  | intr xs =>
    obtain ⟨t, ht, hinv⟩ := h.rounds (mt mem_of_key (of_decide_eq_true hl))
    obtain rfl := Except.ok.inj (ht.step.symm.trans ho)
    exact hinv
  | read p n =>
    cases ho
    exact ⟨h.fits, h.browses, h.order⟩
  | go p killed =>
    rw [Console.step] at ho
    split at ho
    · next k hk =>
      cases ho
      exact h.consumes (consoleread_consumes s p k killed)
    · cases ho

theorem inv_start (behind : Nat → UInt8) : Inv (start behind) := by
  have hd : (start behind).input.editor = ⟨[], []⟩ := by
    simp [start, boot, Input.editor, window]
  constructor
  · rw [hd]
    exact ⟨by decide, by decide⟩
  · exact ⟨Int.le_refl _, by simp [start, boot]⟩
  · rw [hd]
    rfl

theorem inv_exec (h : Exec step (fun s e => legal s e) (start behind) es s) : Inv s :=
  h.invariant (inv_start behind) fun _ _ _ hi hl ho => hi.step hl ho

/-- The console refines the line editor: every input and read does what it allows. -/
theorem refines_editor (h : Exec step (fun s e => legal s e) (start behind) es s) :
    s.input.editor.size ≤ inputBuf ∧
      s.committed = s.consumed ++ s.input.editor.q ∧
      (s.input.editor.q = [] → s.input.editor.l.length < inputBuf ∧
        s.input.editor.key nl = ⟨s.input.editor.l ++ [nl], []⟩) ∧
      (∀ a, a ≠ .key tab → ∃ input, act s.input a = .ok input ∧
        s.input.editor.Allows a input.editor ∧
        input.editor.q = s.input.editor.q ++ window input.buf s.input.w (ahead s.input.w input.w)) ∧
      (∀ xs, tab ∉ xs → ∃ s', step s (.intr xs) = .ok s' ∧
        consoleintr s.input xs = .ok s'.input ∧
        s.input.editor.Runs (actions xs) s'.input.editor ∧ s'.consumed = s.consumed) ∧
      ∀ p k killed, Consumes s (consoleread s p k killed) := by
  have hinv := inv_exec h
  refine ⟨hinv.fits.size, hinv.order, ?_, ?_, ?_, ?_⟩
  · intro hq
    exact ⟨hinv.fits.line, hinv.fits.newline hq⟩
  · intro a ha
    obtain ⟨input, hi, hround, -⟩ := hinv.act ha
    exact ⟨input, hi, hround.editor, ready_append hround⟩
  · intro xs hx
    obtain ⟨s', hs, -⟩ := hinv.rounds (mt mem_of_key hx)
    exact ⟨s', hs.step, (consoleintr_eq _ _).trans hs.input, hs.editor, hs.consumed⟩
  · exact fun p k killed => consoleread_consumes s p k killed

def recallRun : List Event :=
  [.intr [char 'l', char 'x', ctrl 'H', char 's', cr], .read 1 2, .go 1 false, .go 1 false,
    .go 1 false, .intr [esc, char '[', char 'A']]

theorem refines_editor_recallRun :
    ∃ s, Exec step (fun s e => legal s e) (start fun _ => 0) recallRun s ∧
      s.input.editor = ⟨[nl], [char 'l', char 's']⟩ ∧ s.consumed = [char 'l', char 's'] ∧
      s.committed = s.consumed ++ s.input.editor.q := by
  obtain ⟨s, hr, hs⟩ := (Option.any_eq_true _ _).1
    (show (runLegal step legal (start fun _ => 0) recallRun).any (fun s =>
      s.input.editor = ⟨[nl], [char 'l', char 's']⟩ ∧ s.consumed = [char 'l', char 's']) = true by
        decide +kernel)
  have hexec := exec_of_runLegal step legal (start fun _ => 0) recallRun hr
  obtain ⟨hd, hc⟩ := of_decide_eq_true hs
  exact ⟨s, hexec, hd, hc, (refines_editor hexec).2.1⟩

end Xv6.Console
