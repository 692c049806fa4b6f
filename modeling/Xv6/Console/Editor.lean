import Mathlib.Data.List.DropRight
import Xv6.Console.Input

namespace Xv6.Console
open Lib
set_option autoImplicit true

/-- An ideal line editor: the bytes ready and the line being edited. -/
@[ext] structure Editor where
  q : List UInt8
  l : List UInt8
  deriving DecidableEq

def Editor.size (d : Editor) : Nat :=
  d.q.length + d.l.length

/-- A line is handed over by a newline, `^D` or a full buffer. -/
def Editor.insert (d : Editor) (c : UInt8) : Editor :=
  if c = nl ∨ c = ctrl 'D' ∨ d.size + 1 = inputBuf then ⟨d.q ++ (d.l ++ [c]), []⟩
  else ⟨d.q, d.l ++ [c]⟩

def Editor.type (d : Editor) (c : UInt8) : Editor :=
  if c ≠ 0 ∧ d.size < inputBuf then d.insert (if c = cr then nl else c) else d

def Editor.key (d : Editor) (c : UInt8) : Editor :=
  if c = ctrl 'P' then d
  else if c = ctrl 'U' then ⟨d.q, d.l.rdropWhile (· ≠ nl)⟩
  else if c = ctrl 'H' ∨ c = 0x7f then ⟨d.q, d.l.dropLast⟩
  else if c = ctrl 'L' then d
  else d.type c

def Editor.restore (d : Editor) (line : List UInt8) : Editor :=
  ⟨d.q, line.take (inputBuf - d.q.length)⟩

/-- What a round may do: the arrows leave the editor alone or recall a line. -/
inductive Editor.Allows (d : Editor) : Action → Editor → Prop where
  | key : d.Allows (.key c) (d.key c)
  | keep : (∀ c, a ≠ .key c) → d.Allows a d
  | restored : (∀ c, a ≠ .key c) → line.length < inputBuf → d.Allows a (d.restore line)

inductive Editor.Runs : Editor → List Action → Editor → Prop where
  | nil : Runs d [] d
  | cons : d.Allows a d' → Runs d' as d'' → Runs d (a :: as) d''

/-- The bytes `buf[r..w)` and `buf[w..e)`. -/
def Input.editor (s : Input) : Editor where
  q := window s.buf s.r (ahead s.r s.w)
  l := window s.buf s.w (ahead s.w s.e)

theorem inputBuf_dvd : inputBuf ∣ 2 ^ 32 := by
  decide

def Input.held (s : Input) : Nat :=
  ahead s.r s.w + ahead s.w s.e

theorem Input.held_eq (s : Input) : s.held = s.editor.size := by
  simp [Input.held, Editor.size, Input.editor]

section Held
variable {s : Input}

theorem ahead_edit (h : s.held ≤ inputBuf) : ahead s.r s.e = s.held :=
  ahead_trans (Nat.lt_of_le_of_lt h (by decide))

theorem room_iff (h : s.held ≤ inputBuf) : s.room = true ↔ s.held < inputBuf := by
  rw [← ahead_edit h, Input.room, decide_eq_true_iff, UInt32.lt_iff_toNat_lt]
  rfl

theorem ahead_put (h : s.held < inputBuf) (c : UInt8) :
    ahead (s.put c).w (s.put c).e = ahead s.w s.e + 1 := by
  have hlt : ahead s.w s.e + 1 ≤ inputBuf := Nat.lt_of_le_of_lt (Nat.le_add_left _ _) h
  exact ahead_succ (Nat.lt_of_le_of_lt hlt (by decide))

theorem held_put (h : s.held < inputBuf) (c : UInt8) : (s.put c).held = s.held + 1 := by
  rw [Input.held, ahead_put h]
  rfl

theorem editor_put (h : s.held < inputBuf) (c : UInt8) :
    (s.put c).editor = ⟨s.editor.q, s.editor.l ++ [c]⟩ := by
  have hr : s.r + UInt32.ofNat s.held = s.e := by
    rw [← ahead_edit h.le, add_ahead]
  have hw : s.w + UInt32.ofNat (ahead s.w s.e) = s.e := add_ahead s.w s.e
  have hlt : ahead s.w s.e < inputBuf := Nat.lt_of_le_of_lt (Nat.le_add_left _ _) h
  apply Editor.ext
  · have hle : ahead s.r s.w ≤ s.held := Nat.le_add_right _ _
    have hq := window_update inputBuf_dvd s.buf s.r hle h c
    rw [hr] at hq
    exact hq
  · have hl := window_push inputBuf_dvd s.buf s.w hlt c
    rw [hw, ← ahead_put h c] at hl
    exact hl

theorem editor_commit (h : s.held ≤ inputBuf) :
    Input.editor { s with w := s.e } = ⟨s.editor.q ++ s.editor.l, []⟩ := by
  apply Editor.ext
  · show window s.buf s.r (ahead s.r s.e) = _
    rw [ahead_edit h, Input.held, window_append, add_ahead]
    rfl
  · show window s.buf s.e (ahead s.e s.e) = _
    rw [ahead_self]
    rfl

theorem editor_write (h : s.held ≤ inputBuf) (line : List UInt8) :
    (s.write line).editor =
      ⟨s.editor.q, s.editor.l ++ line.take (inputBuf - s.held)⟩ := by
  induction line generalizing s with
  | nil => simp [Input.write]
  | cons c cs ih =>
    rw [Input.write]
    split
    · next hr =>
      have hlt := (room_iff h).1 hr
      have hn : inputBuf - s.held = inputBuf - (s.put c).held + 1 := by
        rw [held_put hlt]
        omega
      rw [ih (by rw [held_put hlt]; exact hlt), editor_put hlt, hn]
      simp
    · next hr =>
      have hn : inputBuf - s.held = 0 := by
        have := mt (room_iff h).2 hr
        omega
      simp [hn]

/-- The history has the same lines in both. -/
structure Keeps (s s' : Input) : Prop where
  history : s'.history = s.history
  count : s'.histCount = s.histCount
  head : s'.histHead = s.histHead

theorem Keeps.refl (s : Input) : Keeps s s :=
  ⟨rfl, rfl, rfl⟩

theorem Keeps.trans (h : Keeps s t) (h' : Keeps t u) : Keeps s u :=
  ⟨h'.history.trans h.history, h'.count.trans h.count, h'.head.trans h.head⟩

theorem Keeps.get (h : Keeps s s') (i : Nat) : historyGet s' i = historyGet s i := by
  simp only [historyGet, h.history, h.count, h.head]

theorem write_frame (s : Input) (line : List UInt8) :
    (s.write line).r = s.r ∧ (s.write line).w = s.w ∧ (s.write line).histPos = s.histPos ∧
      Keeps s (s.write line) := by
  induction line generalizing s with
  | nil => exact ⟨rfl, rfl, rfl, .refl s⟩
  | cons c cs ih =>
    rw [Input.write]
    split
    · obtain ⟨hr, hw, hpos, hkeeps⟩ := ih (s.put c)
      exact ⟨hr, hw, hpos, hkeeps.history, hkeeps.count, hkeeps.head⟩
    · exact ⟨rfl, rfl, rfl, .refl s⟩

theorem window_pred (buf : Fin inputBuf → UInt8) (h : ahead w e = n + 1) :
    ahead w (e - 1) = n ∧ window buf w (n + 1) = window buf w n ++ [buf (slot inputBuf (e - 1))] := by
  have hn : ahead w (e - 1) = n := by
    rw [ahead_pred (by omega), h]
    rfl
  refine ⟨hn, ?_⟩
  rw [window_append, ← hn, add_ahead]
  rfl

theorem window_killTo (buf : Fin inputBuf → UInt8) (h : ahead w e = n) :
    window buf w (ahead w (killTo buf n e)) = (window buf w n).rdropWhile (· ≠ nl) := by
  induction n generalizing e with
  | zero => simp [killTo, h, window]
  | succ n ih =>
    obtain ⟨hn, hw⟩ := window_pred buf h
    rw [killTo, hw]
    split
    · next hc => rw [ih hn, List.rdropWhile_concat_pos _ _ _ (by simpa using hc)]
    · next hc => rw [h, hw, List.rdropWhile_concat_neg _ _ _ (by simpa using hc)]

theorem editor_killLine (s : Input) :
    (killLine s).editor = ⟨s.editor.q, s.editor.l.rdropWhile (· ≠ nl)⟩ := by
  apply Editor.ext
  · rfl
  · exact window_killTo s.buf rfl

theorem editor_backspace (s : Input) :
    (backspace s).editor = ⟨s.editor.q, s.editor.l.dropLast⟩ := by
  rw [backspace]
  split
  · next he => simp [Input.editor, he, window]
  · next he =>
    obtain ⟨n, hn⟩ : ∃ n, ahead s.w s.e = n + 1 :=
      Nat.exists_eq_succ_of_ne_zero (mt ahead_eq_zero.1 he)
    obtain ⟨hp, hw⟩ := window_pred s.buf hn
    simp only [Input.editor, hp, hn, hw, List.dropLast_concat]

theorem historyAdd_frame (s : Input) :
    (historyAdd s).buf = s.buf ∧ (historyAdd s).r = s.r ∧ (historyAdd s).w = s.w ∧
      (historyAdd s).e = s.e := by
  rw [historyAdd]
  split
  · exact ⟨rfl, rfl, rfl, rfl⟩
  · exact ⟨rfl, rfl, rfl, rfl⟩

theorem editor_submit (h : s.held ≤ inputBuf) (c : UInt8) :
    (submit s c).editor = ⟨s.editor.q ++ s.editor.l, []⟩ := by
  rw [← editor_commit h, submit]
  split
  · obtain ⟨hb, hr, hw, he⟩ := historyAdd_frame s
    simp only [Input.editor, hb, hr, he]
  · rfl

theorem full_iff (h : s.held ≤ inputBuf) : s.e = s.r + 128 ↔ s.held = inputBuf := by
  rw [← ahead_edit h]
  exact eq_add_iff s.r s.e (n := inputBuf) (by decide)

theorem editor_insert (h : s.held < inputBuf) (c : UInt8) :
    (insert s c).editor = s.editor.insert c := by
  have hlt : Input.held { s with histPos := -1 } < inputBuf := h
  have hn : (Input.put { s with histPos := -1 } c).held = s.editor.size + 1 := by
    rw [held_put hlt, ← s.held_eq]
    rfl
  have hd : (Input.put { s with histPos := -1 } c).editor =
      ⟨s.editor.q, s.editor.l ++ [c]⟩ := editor_put hlt c
  rw [insert, Editor.insert, ← hn]
  generalize Input.put { s with histPos := -1 } c = t at hn hd
  have hle : t.held ≤ inputBuf := by
    rw [hn, ← s.held_eq]
    exact h
  simp only [full_iff hle]
  split
  · rw [editor_submit hle, hd]
  · exact hd

theorem editor_type (h : s.held ≤ inputBuf) (c : UInt8) :
    (type s c).editor = s.editor.type c := by
  simp only [type, Editor.type, room_iff h, ← s.held_eq]
  split
  · next hc => exact editor_insert hc.2 _
  · rfl

/-- The arrows move inside the history. -/
structure Browses (s : Input) : Prop where
  low : -1 ≤ s.histPos
  high : s.histPos < s.histCount.val

theorem historyGet_length (s : Input) (i : Nat) : (historyGet s i).length < inputBuf := by
  apply Nat.lt_of_le_of_lt (List.takeWhile_sublist _).length_le
  rw [List.length_ofFn]
  decide

theorem held_erase (h : s.held ≤ inputBuf) : Input.held { s with e := s.w } ≤ inputBuf := by
  simp only [Input.held, ahead_self]
  exact Nat.le_trans (Nat.le_add_right _ _) h

/-- The line that `history_restore` brings back. -/
def recalled (s : Input) (i : Int) : List UInt8 :=
  if i < 0 then [] else historyGet s i.toNat

theorem recalled_length (s : Input) (i : Int) : (recalled s i).length < inputBuf := by
  rw [recalled]
  split
  · decide
  · exact historyGet_length s i.toNat

theorem historyRestore_ok {i : Int} (h : s.held ≤ inputBuf) (hi : i < s.histCount.val) :
    ∃ s', historyRestore s i = .ok s' ∧ s'.editor = s.editor.restore (recalled s i) ∧
      s'.r = s.r ∧ s'.w = s.w ∧ s'.histPos = s.histPos ∧ Keeps s s' := by
  by_cases hneg : i < 0
  · rw [historyRestore, recalled, if_pos hneg, if_pos hneg]
    refine ⟨_, rfl, ?_, rfl, rfl, rfl, ⟨rfl, rfl, rfl⟩⟩
    simp [Input.editor, Editor.restore, window]
  · obtain ⟨hr, hw, hpos, hkeeps⟩ := write_frame { s with e := s.w } (historyGet s i.toNat)
    rw [historyRestore, recalled, if_neg hneg, if_neg hneg, if_pos hi]
    refine ⟨_, rfl, ?_, hr, hw, hpos, ⟨hkeeps.history, hkeeps.count, hkeeps.head⟩⟩
    rw [editor_write (held_erase h)]
    simp [Input.held, Input.editor, Editor.restore, window]

theorem historyAdd_pos (h : s.histPos = -1) : (historyAdd s).histPos = -1 := by
  rw [historyAdd]
  split
  · exact h
  · rfl

theorem insert_frame (s : Input) (c : UInt8) :
    (insert s c).r = s.r ∧ (insert s c).histPos = -1 := by
  rw [insert]
  split
  · rw [submit]
    split
    · exact ⟨(historyAdd_frame _).2.1, historyAdd_pos rfl⟩
    · exact ⟨rfl, rfl⟩
  · exact ⟨rfl, rfl⟩

/-- What a round does to the reading side, the editor and the history. -/
structure Round (s : Input) (a : Action) (s' : Input) : Prop where
  r : s'.r = s.r
  editor : s.editor.Allows a s'.editor
  browses : Browses s'

theorem round_type (h : s.held ≤ inputBuf) (hb : Browses s) (c : UInt8) :
    (type s c).r = s.r ∧ (type s c).editor = s.editor.type c ∧ Browses (type s c) := by
  refine ⟨?_, editor_type h c, ?_⟩
  · rw [type]
    split
    · exact (insert_frame s _).1
    · rfl
  · rw [type]
    split
    · constructor
      · rw [(insert_frame s _).2]
      · rw [(insert_frame s _).2]
        omega
    · exact hb

theorem round_key (h : s.held ≤ inputBuf) (hb : Browses s) (hc : c ≠ tab) :
    ∃ s', key s c = .ok s' ∧ s'.r = s.r ∧ s'.editor = s.editor.key c ∧ Browses s' := by
  rw [key, Editor.key]
  by_cases hP : c = ctrl 'P'
  · rw [if_pos hP, if_pos hP]
    exact ⟨s, rfl, rfl, rfl, hb⟩
  rw [if_neg hP, if_neg hP]
  by_cases hU : c = ctrl 'U'
  · rw [if_pos hU, if_pos hU]
    exact ⟨_, rfl, rfl, editor_killLine s, ⟨hb.low, hb.high⟩⟩
  rw [if_neg hU, if_neg hU]
  by_cases hH : c = ctrl 'H' ∨ c = 0x7f
  · rw [if_pos hH, if_pos hH]
    refine ⟨_, rfl, ?_, editor_backspace s, ?_⟩
    · rw [backspace]
      split
      · rfl
      · rfl
    · rw [backspace]
      split
      · exact hb
      · exact ⟨hb.low, hb.high⟩
  rw [if_neg hH, if_neg hH]
  by_cases hL : c = ctrl 'L'
  · rw [if_pos hL, if_pos hL]
    exact ⟨s, rfl, rfl, rfl, hb⟩
  rw [if_neg hL, if_neg hL, if_neg hc]
  exact ⟨_, rfl, round_type h hb c⟩

theorem round_restore {i : Int} (h : s.held ≤ inputBuf) (hlow : -1 ≤ i)
    (hi : i < s.histCount.val) (ha : ∀ c, a ≠ .key c) :
    ∃ s', historyRestore { s with histPos := i } i = .ok s' ∧ Round s a s' := by
  obtain ⟨s', hs, hd, hr, -, hpos, hkeeps⟩ :=
    historyRestore_ok (s := { s with histPos := i }) h hi
  have hbrowse : Browses s' := by
    constructor
    · rw [hpos]
      exact hlow
    · rw [hpos, hkeeps.count]
      exact hi
  have hallow : s.editor.Allows a (s.editor.restore (recalled { s with histPos := i } i)) :=
    .restored ha (recalled_length _ i)
  exact ⟨s', hs, hr, hd ▸ hallow, hbrowse⟩

theorem arrow_cases (hb : Browses s) (ha : a = .up ∨ a = .down) :
    act s a = .ok s ∨ ∃ i : Int, -1 ≤ i ∧ i < s.histCount.val ∧
      act s a = historyRestore { s with histPos := i } i := by
  obtain ⟨hlow, hhigh⟩ := hb
  rcases ha with rfl | rfl
  · rw [act, arrowUp]
    split
    · next hcount =>
      have hpos : 0 < s.histCount.val := hcount
      refine .inr ⟨_, ?_, ?_, rfl⟩
      · split
        · omega
        · split
          · omega
          · omega
      · split
        · omega
        · split
          · omega
          · omega
    · exact .inl rfl
  · rw [act, arrowDown]
    split
    · exact .inl rfl
    · split
      · exact .inr ⟨_, by omega, by omega, rfl⟩
      · exact .inr ⟨_, by omega, by omega, rfl⟩

theorem Action.arrow_of_not_key {a : Action} (h : ∀ c, a ≠ .key c) : a = .up ∨ a = .down := by
  cases a with
  | key c => exact absurd rfl (h c)
  | up => exact .inl rfl
  | down => exact .inr rfl

/-- Without `TAB` every round does what the editor allows. -/
theorem act_round (h : s.held ≤ inputBuf) (hb : Browses s) (ha : a ≠ .key tab) :
    ∃ s', act s a = .ok s' ∧ Round s a s' := by
  by_cases hkey : ∃ c, a = .key c
  · obtain ⟨c, rfl⟩ := hkey
    obtain ⟨s', hs, hr, hd, hb'⟩ := round_key h hb fun hc => ha (congrArg _ hc)
    have hallow : s.editor.Allows (.key c) (s.editor.key c) := .key
    exact ⟨s', hs, hr, hd ▸ hallow, hb'⟩
  · have hnot : ∀ c, a ≠ .key c := not_exists.1 hkey
    rcases arrow_cases hb (Action.arrow_of_not_key hnot) with hs | ⟨i, hlow, hi, hs⟩
    · exact ⟨s, hs, rfl, .keep hnot, hb⟩
    · obtain ⟨s', hs', hround⟩ := round_restore h hlow hi hnot
      exact ⟨s', hs.trans hs', hround⟩

end Held

/-- The buffer holds the bytes ready and the line, which alone does not fill it. -/
structure Fits (d : Editor) : Prop where
  size : d.size ≤ inputBuf
  line : d.l.length < inputBuf

section Fits
variable {d d' : Editor}

theorem Fits.edit (h : Fits d) (hl : l.length ≤ d.l.length) : Fits ⟨d.q, l⟩ := by
  obtain ⟨hsize, hline⟩ := h
  rw [Editor.size] at hsize
  constructor
  · simp only [Editor.size]
    omega
  · exact Nat.lt_of_le_of_lt hl hline

theorem Fits.insert (h : d.size < inputBuf) (c : UInt8) : Fits (d.insert c) := by
  rw [Editor.insert]
  rw [Editor.size] at h
  split
  · constructor
    · simp only [Editor.size, List.length_append, List.length_singleton, List.length_nil]
      omega
    · exact Nat.zero_lt_succ _
  · next hc =>
    simp only [Editor.size, not_or] at hc
    constructor
    · simp only [Editor.size, List.length_append, List.length_singleton]
      omega
    · simp only [List.length_append, List.length_singleton]
      omega

theorem Fits.type (h : Fits d) (c : UInt8) : Fits (d.type c) := by
  rw [Editor.type]
  split
  · next hc => exact Fits.insert hc.2 _
  · exact h

theorem Fits.key (h : Fits d) (c : UInt8) : Fits (d.key c) := by
  rw [Editor.key]
  split
  · exact h
  · split
    · exact h.edit (List.rdropWhile_prefix _ _).length_le
    · split
      · exact h.edit (List.dropLast_sublist _).length_le
      · split
        · exact h
        · exact h.type c

theorem Fits.restore {xs : List UInt8} (h : Fits d) (hl : xs.length < inputBuf) :
    Fits (d.restore xs) := by
  have hsize := h.size
  rw [Editor.size] at hsize
  constructor
  · simp only [Editor.size, Editor.restore, List.length_take]
    omega
  · simp only [Editor.restore, List.length_take]
    omega

theorem Fits.front {b : UInt8} (h : Fits ⟨b :: q, l⟩) : Fits ⟨q, l⟩ := by
  have hsize := h.size
  simp only [Editor.size, List.length_cons] at hsize
  constructor
  · simp only [Editor.size]
    omega
  · exact h.line

theorem Fits.allows (h : Fits d) (ha : d.Allows a d') : Fits d' := by
  cases ha with
  | key => exact h.key _
  | keep => exact h
  | restored _ hl => exact h.restore hl

theorem Editor.ready_insert (d : Editor) (c : UInt8) : d.q <+: (d.insert c).q := by
  rw [Editor.insert]
  split
  · exact List.prefix_append _ _
  · exact List.prefix_rfl

theorem Editor.ready_type (d : Editor) (c : UInt8) : d.q <+: (d.type c).q := by
  rw [Editor.type]
  split
  · exact d.ready_insert _
  · exact List.prefix_rfl

theorem Editor.ready_key (d : Editor) (c : UInt8) : d.q <+: (d.key c).q := by
  rw [Editor.key]
  split
  · exact List.prefix_rfl
  · split
    · exact List.prefix_rfl
    · split
      · exact List.prefix_rfl
      · split
        · exact List.prefix_rfl
        · exact d.ready_type c

theorem Editor.Allows.ready (h : d.Allows a d') : d.q <+: d'.q := by
  cases h with
  | key => exact d.ready_key _
  | keep => exact List.prefix_rfl
  | restored => exact List.prefix_rfl

theorem Fits.newline (h : Fits d) (hq : d.q = []) : d.key nl = ⟨d.l ++ [nl], []⟩ := by
  have hsize : d.size < inputBuf := by
    rw [Editor.size, hq, List.length_nil, Nat.zero_add]
    exact h.line
  have hkey : d.key nl = d.type nl := rfl
  rw [hkey, Editor.type, if_pos ⟨by decide, hsize⟩, Editor.insert, if_pos (.inl rfl), hq]
  rfl

end Fits

end Xv6.Console
