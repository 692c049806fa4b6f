import Xv6.Console.Readers
import Xv6.Lib.Ownership
import Mathlib.Data.List.ReduceOption

namespace Xv6.Console
open Lib Function
set_option autoImplicit true

/-- The calls of `consoleread` come one after the other, and ask for something. -/
def oneByOne (s : St) : Event → Prop
  | .intr _ => True
  | .read _ n => 1 ≤ n ∧ ∀ p, s.reader p = none
  | .go p _ => s.reader p ≠ none

/-- What the callers see: their bytes, and `none` for a call that returns 0. -/
def seen (rets : List (Pid × List UInt8 × Int)) : List (Option UInt8) :=
  rets.flatMap fun x => if x.2.2 = 0 then [none] else x.2.1.map some

/-- The bytes between the calls that return 0. -/
def frames (rets : List (Pid × List UInt8 × Int)) : List (List UInt8) :=
  ((seen rets).splitOn none).map List.reduceOption

/-- A byte of the stream as the callers should see it. -/
def meaning (c : UInt8) : Option UInt8 :=
  if c = ctrl 'D' then none else some c

/-- The bytes that a call stores, and what it returns. -/
structure Answer (dst : List UInt8) (result : Int) : Prop where
  eof : ctrl 'D' ∉ dst
  line : nl ∉ dst.dropLast
  result : result = dst.length ∨ result = -1

structure Reading (k : Reader) : Prop where
  count : k.n + k.dst.length = k.target
  target : 1 ≤ k.target
  eof : ctrl 'D' ∉ k.dst
  line : nl ∉ k.dst

/-- `dst` is what the call in progress has taken, if there is one. -/
structure Framed (s : St) (dst : List UInt8) : Prop where
  stream : s.consumed.map meaning = seen s.returned ++ dst.map some
  blocks : ∀ x ∈ s.returned, Answer x.2.1 x.2.2
  reader : ∀ p k, s.reader p = some k → k.dst = dst ∧ Reading k ∧ ∀ q, q ≠ p → s.reader q = none
  idle : (∀ p, s.reader p = none) → dst = []

theorem seen_snoc (rets : List (Pid × List UInt8 × Int)) (p : Pid) (dst : List UInt8) (r : Int) :
    seen (rets ++ [(p, dst, r)]) = seen rets ++ if r = 0 then [none] else dst.map some := by
  simp [seen]

theorem meaning_of_ne (h : c ≠ ctrl 'D') : meaning c = some c :=
  if_neg h

theorem Reading.block {r : Int} (h : Reading k) (hr : r = k.dst.length ∨ r = -1) : Answer k.dst r :=
  ⟨h.eof, fun hm => h.line (List.dropLast_subset _ hm), hr⟩

section
variable {s s' : St} {p : Pid} {k : Reader}

theorem foldlM_act_frame {as : List Action} (h : as.foldlM St.act s = .ok s') :
    s'.reader = s.reader ∧ s'.consumed = s.consumed ∧ s'.returned = s.returned := by
  induction as generalizing s with
  | nil =>
    cases h
    exact ⟨rfl, rfl, rfl⟩
  | cons a as ih =>
    rw [List.foldlM_cons] at h
    obtain ⟨t, ht, h⟩ := bind_ok h
    obtain ⟨input, -, ht⟩ := bind_ok ht
    cases ht
    have hrest := ih h
    exact hrest

theorem Framed.finish (h : Framed s dst) (hk : s.reader p = some k) (hreader : s'.reader = s.reader)
    (hreturned : s'.returned = s.returned)
    (hstream : s'.consumed.map meaning =
      seen s.returned ++ if r = 0 then [none] else k'.dst.map some)
    (hblock : Answer k'.dst r) : Framed (s'.finish p k' r) [] := by
  obtain ⟨-, -, hothers⟩ := h.reader p k hk
  constructor
  · show s'.consumed.map meaning = seen (s'.returned ++ [(p, k'.dst, r)]) ++ []
    rw [hreturned, seen_snoc, List.append_nil, hstream]
  · intro x hx
    rcases List.mem_append.1 hx with hx | hx
    · rw [hreturned] at hx
      exact h.blocks x hx
    · obtain rfl := List.mem_singleton.1 hx
      exact hblock
  · intro q k'' hq
    simp only [St.finish, hreader] at hq
    by_cases hqp : q = p
    · rw [hqp, update_self] at hq
      cases hq
    · rw [update_of_ne hqp, hothers q hqp] at hq
      cases hq
  · intro _
    rfl

theorem Framed.consoleread (h : Framed s dst) (hk : s.reader p = some k) (killed : Bool) :
    ∃ dst', Framed (consoleread s p k killed) dst' := by
  obtain ⟨rfl, hr, hothers⟩ := h.reader p k hk
  have hcount := hr.count
  have htarget := hr.target
  have hres : (k.target : Int) - k.n = k.dst.length := by omega
  have hstream (r : Int) (hr0 : r ≠ 0) : s.consumed.map meaning =
      seen s.returned ++ if r = 0 then [none] else k.dst.map some := by
    rw [if_neg hr0, h.stream]
  have htake : s.take.consumed.map meaning = seen s.returned ++ k.dst.map some ++
      [meaning (s.input.buf (slot inputBuf s.input.r))] := by
    rw [St.take, List.map_append, h.stream]
    rfl
  rw [Console.consoleread]
  split
  · next hn =>
    refine ⟨[], h.finish hk rfl rfl (hstream _ ?_) (hr.block (.inl hres))⟩
    omega
  · next hn =>
    split
    · split
      · exact ⟨[], h.finish hk rfl rfl (hstream _ (by decide)) (hr.block (.inr rfl))⟩
      · exact ⟨k.dst, h⟩
    · dsimp only
      split
      · next hc =>
        split
        · next hlt =>
          refine ⟨[], h.finish hk rfl rfl (hstream _ ?_) (hr.block (.inl hres))⟩
          omega
        · next hge =>
          have hnil : k.dst = [] := List.eq_nil_of_length_eq_zero (by omega)
          refine ⟨[], h.finish hk rfl rfl ?_ (hr.block (.inl hres))⟩
          rw [htake, if_pos (by omega), hnil, hc, List.map_nil, List.append_nil]
          rfl
      · next hc =>
        have hstored : s.take.consumed.map meaning = seen s.returned ++
            (k.dst ++ [s.input.buf (slot inputBuf s.input.r)]).map some := by
          rw [htake, meaning_of_ne hc, List.map_append, List.append_assoc]
          rfl
        have heof : ctrl 'D' ∉ k.dst ++ [s.input.buf (slot inputBuf s.input.r)] := by
          rw [List.mem_append, List.mem_singleton, not_or]
          exact ⟨hr.eof, Ne.symm hc⟩
        split
        · refine ⟨[], h.finish hk rfl rfl ?_ ⟨heof, ?_, .inl ?_⟩⟩
          · rw [if_neg (by omega), hstored]
          · rw [List.dropLast_concat]
            exact hr.line
          · rw [List.length_append, List.length_singleton]
            omega
        · next hnl =>
          refine ⟨_, hstored, h.blocks, ?_, ?_⟩
          · intro q k' hq
            rcases update_eq_some hq with ⟨rfl, rfl⟩ | ⟨hqp, hq⟩
            · refine ⟨rfl, ⟨?_, htarget, heof, ?_⟩, ?_⟩
              · rw [List.length_append, List.length_singleton]
                show k.n - 1 + (k.dst.length + 1) = k.target
                omega
              · rw [List.mem_append, List.mem_singleton, not_or]
                exact ⟨hr.line, Ne.symm hnl⟩
              · intro r hrq
                exact (update_of_ne hrq ..).trans (hothers r hrq)
            · cases (hothers q hqp).symm.trans hq
          · intro hidle
            have hp := hidle p
            simp only [update_self] at hp
            cases hp

theorem Framed.step (h : Framed s dst) (hl : oneByOne s e) (ho : step s e = .ok s') :
    ∃ dst', Framed s' dst' := by
  cases e with
  | intr xs =>
    obtain ⟨hreader, hconsumed, hreturned⟩ := foldlM_act_frame ho
    refine ⟨dst, ?_, ?_, ?_, ?_⟩
    · rw [hconsumed, hreturned, h.stream]
    · rw [hreturned]
      exact h.blocks
    · rw [hreader]
      exact h.reader
    · rw [hreader]
      exact h.idle
  | read p n =>
    cases ho
    obtain ⟨hn, hidle⟩ := hl
    obtain rfl := h.idle hidle
    refine ⟨[], h.stream, h.blocks, ?_, fun _ => rfl⟩
    intro q k hq
    rcases update_eq_some hq with ⟨rfl, rfl⟩ | ⟨-, hq⟩
    · refine ⟨rfl, ⟨rfl, hn, List.not_mem_nil, List.not_mem_nil⟩, ?_⟩
      intro r hr
      exact (update_of_ne hr ..).trans (hidle r)
    · cases (hidle q).symm.trans hq
  | go p killed =>
    rw [Console.step] at ho
    split at ho
    · next k hk =>
      cases ho
      exact h.consoleread hk killed
    · cases ho

theorem framed_exec (h : Exec step oneByOne (start behind) es s) : ∃ dst, Framed s dst := by
  apply h.invariant (I := fun s => ∃ dst, Framed s dst)
  · exact ⟨[], rfl, nofun, nofun, fun _ => rfl⟩
  · rintro s e s' ⟨dst, hf⟩ hl ho
    exact hf.step hl ho

theorem exec_legal (h : Exec step oneByOne (start behind) es s)
    (htab : ∀ xs, .intr xs ∈ es → tab ∉ xs) :
    Exec step (fun s e => legal s e) (start behind) es s := by
  induction h with
  | nil => exact .nil
  | @snoc as s a s' _ hl ho ih =>
    have hbefore := ih fun xs hx => htab xs (List.mem_append_left _ hx)
    refine hbefore.snoc ?_ ho
    cases a with
    | intr xs => exact decide_eq_true (htab xs (List.mem_append_right _ (List.mem_singleton_self _)))
    | read p n => exact Option.isNone_iff_eq_none.2 (hl.2 p)
    | go p killed => exact Option.isSome_iff_ne_none.2 hl

theorem seen_eq (h : Exec step oneByOne (start behind) es s) (hidle : ∀ p, s.reader p = none) :
    seen s.returned = s.consumed.map meaning := by
  obtain ⟨dst, hf⟩ := framed_exec h
  rw [hf.stream, hf.idle hidle, List.map_nil, List.append_nil]

theorem count_meaning (l : List UInt8) : (l.map meaning).count none = l.count (ctrl 'D') := by
  induction l with
  | nil => rfl
  | cons c l ih =>
    rw [List.map_cons, List.count_cons, List.count_cons, ih, meaning]
    split
    · next hc => simp [hc]
    · next hc => simp [hc]

theorem count_seen (h : ∀ x ∈ rets, Answer x.2.1 x.2.2) :
    (seen rets).count none = rets.countP fun x => x.2.2 = 0 := by
  induction rets with
  | nil => rfl
  | cons x rets ih =>
    have hrest := ih fun y hy => h y (List.mem_cons_of_mem x hy)
    rw [seen, List.flatMap_cons, List.count_append, List.countP_cons]
    rw [seen] at hrest
    rw [hrest, Nat.add_comm]
    congr 1
    by_cases hx : x.2.2 = 0
    · simp [hx]
    · rw [if_neg hx, if_neg (by simpa using hx), List.count_eq_zero]
      simp

/-- Blocks end at a newline, 0 stands for `^D`, and the rest depends on the stream only. -/
theorem reads_frame {s₁ s₂ : St} (h₁ : Exec step oneByOne (start behind₁) es₁ s₁)
    (h₂ : Exec step oneByOne (start behind₂) es₂ s₂) (hidle₁ : ∀ p, s₁.reader p = none)
    (hidle₂ : ∀ p, s₂.reader p = none) (hsame : s₁.consumed = s₂.consumed) :
    (∀ x ∈ s₁.returned, Answer x.2.1 x.2.2) ∧
      seen s₁.returned = s₁.consumed.map meaning ∧
      (s₁.returned.countP fun x => x.2.2 = 0) = s₁.consumed.count (ctrl 'D') ∧
      frames s₁.returned = frames s₂.returned ∧
      ((∀ xs, .intr xs ∈ es₁ → tab ∉ xs) → s₁.committed = s₁.consumed ++ s₁.input.editor.q) := by
  obtain ⟨dst, hf⟩ := framed_exec h₁
  have hseen := seen_eq h₁ hidle₁
  refine ⟨hf.blocks, hseen, ?_, ?_, ?_⟩
  · rw [← count_seen hf.blocks, hseen, count_meaning]
  · rw [frames, frames, hseen, seen_eq h₂ hidle₂, hsame]
  · intro htab
    exact (inv_exec (exec_legal h₁ htab)).order

end

def lines : Event :=
  .intr [char 'a', char 'b', cr, ctrl 'D', char 'c', cr]

def wideReads : List Event :=
  [lines, .read 1 8, .go 1 false, .go 1 false, .go 1 false, .read 1 8, .go 1 false, .read 1 8,
    .go 1 false, .go 1 false]

def narrowReads : List Event :=
  [lines, .read 1 2, .go 1 false, .go 1 false, .go 1 false, .read 1 2, .go 1 false, .read 1 2,
    .go 1 false, .read 1 1, .go 1 false, .go 1 false, .read 1 1, .go 1 false]

def solo (s : St) : Event → Bool
  | .intr _ => true
  | .read p n => p = 1 ∧ 1 ≤ n ∧ (s.reader 1).isNone
  | .go p _ => p = 1 ∧ (s.reader 1).isSome

theorem consoleread_reader {s : St} (hq : q ≠ p) :
    (consoleread s p k killed).reader q = s.reader q := by
  have hne (r : Option Reader) : update s.reader p r q = s.reader q :=
    update_of_ne hq ..
  rw [consoleread]
  split
  · exact hne _
  · split
    · split
      · exact hne _
      · rfl
    · dsimp only
      split
      · split
        · exact hne _
        · exact hne _
      · split
        · exact hne _
        · exact hne _

theorem exec_solo {s : St} (h : Exec step (fun s e => solo s e) (start behind) es s) :
    Exec step oneByOne (start behind) es s ∧ ∀ p, p ≠ 1 → s.reader p = none := by
  induction h with
  | nil => exact ⟨.nil, fun _ _ => rfl⟩
  | @snoc as s a s' _ hl ho ih =>
    obtain ⟨hexec, hothers⟩ := ih
    cases a with
    | intr xs =>
      refine ⟨hexec.snoc trivial ho, ?_⟩
      rw [(foldlM_act_frame ho).1]
      exact hothers
    | read p n =>
      obtain ⟨rfl, hn, hnone⟩ := of_decide_eq_true hl
      have hidle (q : Pid) : s.reader q = none := by
        by_cases hq : q = 1
        · rw [hq]
          exact Option.isNone_iff_eq_none.1 hnone
        · exact hothers q hq
      refine ⟨hexec.snoc ⟨hn, hidle⟩ ho, ?_⟩
      cases ho
      intro q hq
      exact (update_of_ne hq ..).trans (hidle q)
    | go p killed =>
      obtain ⟨rfl, hsome⟩ := of_decide_eq_true hl
      refine ⟨hexec.snoc (Option.isSome_iff_ne_none.1 hsome) ho, ?_⟩
      intro q hq
      rw [step] at ho
      split at ho
      · cases ho
        rw [consoleread_reader hq]
        exact hothers q hq
      · cases ho

theorem idle_solo {s : St} (h : Exec step (fun s e => solo s e) (start behind) es s)
    (h1 : s.reader 1 = none) (p : Pid) : s.reader p = none := by
  by_cases hp : p = 1
  · rw [hp, h1]
  · exact (exec_solo h).2 p hp

theorem reads_frame_lines : ∃ s₁ s₂, Exec step oneByOne (start fun _ => 0) wideReads s₁ ∧
    Exec step oneByOne (start fun _ => 0) narrowReads s₂ ∧
    s₁.returned.map (fun x => x.2.2) = [3, 0, 2] ∧
    s₂.returned.map (fun x => x.2.2) = [2, 1, 0, 1, 1] ∧
    frames s₁.returned = frames s₂.returned := by
  obtain ⟨s₁, hr₁, hs₁⟩ := (Option.any_eq_true _ _).1
    (show (runLegal step solo (start fun _ => 0) wideReads).any (fun s =>
      s.reader 1 = none ∧ s.returned.map (fun x => x.2.2) = [3, 0, 2] ∧
      s.consumed = [char 'a', char 'b', nl, ctrl 'D', char 'c', nl]) = true by decide +kernel)
  obtain ⟨s₂, hr₂, hs₂⟩ := (Option.any_eq_true _ _).1
    (show (runLegal step solo (start fun _ => 0) narrowReads).any (fun s =>
      s.reader 1 = none ∧ s.returned.map (fun x => x.2.2) = [2, 1, 0, 1, 1] ∧
      s.consumed = [char 'a', char 'b', nl, ctrl 'D', char 'c', nl]) = true by decide +kernel)
  obtain ⟨hn₁, hret₁, hc₁⟩ := of_decide_eq_true hs₁
  obtain ⟨hn₂, hret₂, hc₂⟩ := of_decide_eq_true hs₂
  have hsolo₁ := exec_of_runLegal _ _ _ _ hr₁
  have hsolo₂ := exec_of_runLegal _ _ _ _ hr₂
  have hexec₁ := (exec_solo hsolo₁).1
  have hexec₂ := (exec_solo hsolo₂).1
  refine ⟨s₁, s₂, hexec₁, hexec₂, hret₁, hret₂, ?_⟩
  exact (reads_frame hexec₁ hexec₂ (idle_solo hsolo₁ hn₁) (idle_solo hsolo₂ hn₂)
    (hc₁.trans hc₂.symm)).2.2.2.1

end Xv6.Console
