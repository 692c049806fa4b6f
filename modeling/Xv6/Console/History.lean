import Xv6.Console.Editor
import Xv6.Lib.Exec

namespace Xv6.Console
open Lib
set_option autoImplicit true

def entry (line : Fin inputBuf → UInt8) : List UInt8 :=
  (List.ofFn fun j : Fin (inputBuf - 1) => line (j.castLE line_le)).takeWhile (· ≠ 0)

def place (s : Input) (i : Nat) : Fin histMax :=
  Fin.ofNat histMax ((s.histHead + histMax - s.histCount) % histMax + i)

theorem historyGet_eq (s : Input) (i : Nat) : historyGet s i = entry (s.history (place s i)) :=
  rfl

def copied (s : Input) : List UInt8 :=
  List.ofFn fun j : Fin (min (historyLen s - 1).toNat (inputBuf - 1)) =>
    s.buf (Fin.ofNat inputBuf (historyStart s + j).toNat)

/-- The line that `history_add` records, if it does. -/
def recorded (s : Input) : Option (List UInt8) :=
  if historyLen s ≤ 1 then none else some ((copied s).takeWhile (· ≠ 0))

theorem takeWhile_take {l : List UInt8} (h : l[n]?.getD 0 = 0) :
    (l.take n).takeWhile (· ≠ 0) = l.takeWhile (· ≠ 0) := by
  induction l generalizing n with
  | nil => rw [List.take_nil]
  | cons c l ih =>
    cases n with
    | zero =>
      obtain rfl : c = 0 := h
      rfl
    | succ n =>
      rw [List.take_succ_cons, List.takeWhile_cons, List.takeWhile_cons, ih h]

theorem entry_historyLine (s : Input) (start : Int) (hn : n ≤ inputBuf - 1) :
    entry (historyLine s start n) =
      (List.ofFn fun j : Fin n => s.buf (Fin.ofNat inputBuf (start + j).toNat)).takeWhile (· ≠ 0) := by
  have hend : (List.ofFn fun j : Fin (inputBuf - 1) =>
      historyLine s start n (j.castLE (by decide)))[n]?.getD 0 = 0 := by
    rw [List.getElem?_ofFn]
    split
    · simp [historyLine]
    · rfl
  rw [entry, ← takeWhile_take hend]
  congr 1
  apply List.ext_getElem
  · rw [List.length_take, List.length_ofFn, List.length_ofFn, Nat.min_eq_left hn]
  · intro i h₁ h₂
    have hi : i < n := by rwa [List.length_ofFn] at h₂
    rw [List.getElem_take, List.getElem_ofFn, List.getElem_ofFn]
    exact if_pos hi

theorem historyAdd_eq (h : ¬ historyLen s ≤ 1) :
    historyAdd s =
      { s with
        history :=
          Function.update s.history s.histHead
            (historyLine s (historyStart s) (min (historyLen s - 1).toNat (inputBuf - 1)))
        histHead := s.histHead + 1
        histCount := if s.histCount < Fin.last histMax then s.histCount + 1 else s.histCount
        histPos := -1 } :=
  if_neg h

/-- How many lines the next one takes the place of. -/
def lost (s : Input) : Nat :=
  s.histCount.val + 1 - histMax

theorem place_ne_head (hlow : lost s ≤ i) (hi : i < s.histCount.val) : place s i ≠ s.histHead := by
  intro h
  have hval : ((s.histHead.val + histMax - s.histCount.val) % histMax + i) % histMax =
      s.histHead.val := congrArg Fin.val h
  have hcount := s.histCount.isLt
  have hhead := s.histHead.isLt
  simp only [lost, histMax] at hlow hval hcount hhead
  omega

theorem place_head (s : Input) : place s s.histCount = s.histHead := by
  have hcount := s.histCount.isLt
  have hhead := s.histHead.isLt
  apply Fin.ext
  show ((s.histHead.val + histMax - s.histCount.val) % histMax + s.histCount.val) % histMax =
    s.histHead.val
  simp only [histMax] at hcount hhead ⊢
  omega

theorem count_historyAdd (h : ¬ historyLen s ≤ 1) :
    (historyAdd s).histCount.val = s.histCount.val + 1 - lost s := by
  have hcount := s.histCount.isLt
  rw [historyAdd_eq h]
  show (if s.histCount < Fin.last histMax then s.histCount + 1 else s.histCount).val = _
  split
  · next hlt =>
    have hval : s.histCount.val < histMax := hlt
    rw [Fin.val_add_one_of_lt hlt]
    simp only [lost, histMax] at hval ⊢
    omega
  · next hge =>
    have hval : ¬ s.histCount.val < histMax := hge
    simp only [lost, histMax] at hval hcount ⊢
    omega

theorem place_historyAdd (h : ¬ historyLen s ≤ 1) (i : Nat) :
    place (historyAdd s) i = place s (i + lost s) := by
  have hcount' := count_historyAdd h
  have hcount := s.histCount.isLt
  have hhead := s.histHead.isLt
  have hhead' : (historyAdd s).histHead.val = (s.histHead.val + 1) % histMax := by
    rw [historyAdd_eq h]
    exact Fin.val_add ..
  apply Fin.ext
  show (((historyAdd s).histHead.val + histMax - (historyAdd s).histCount.val) % histMax + i) %
    histMax = ((s.histHead.val + histMax - s.histCount.val) % histMax + (i + lost s)) % histMax
  rw [hcount', hhead']
  simp only [lost, histMax] at hcount hhead ⊢
  omega

theorem get_historyAdd (h : ¬ historyLen s ≤ 1) (hi : i + lost s < s.histCount.val) :
    historyGet (historyAdd s) i = historyGet s (i + lost s) := by
  rw [historyGet_eq, historyGet_eq, place_historyAdd h, historyAdd_eq h]
  exact congrArg entry (Function.update_of_ne (place_ne_head (Nat.le_add_left _ _) hi) ..)

theorem recorded_len (h : recorded s = some line) : ¬ historyLen s ≤ 1 := by
  intro hle
  rw [recorded, if_pos hle] at h
  cases h

theorem entry_added (h : recorded s = some line) :
    entry ((historyAdd s).history s.histHead) = line := by
  have hlen := recorded_len h
  rw [recorded, if_neg hlen] at h
  rw [historyAdd_eq hlen, ← Option.some.inj h]
  refine (congrArg entry (Function.update_self ..)).trans ?_
  exact entry_historyLine s (historyStart s) (Nat.min_le_right ..)

theorem get_historyAdd_newest (h : recorded s = some line) (hi : i + lost s = s.histCount.val) :
    historyGet (historyAdd s) i = line := by
  rw [historyGet_eq, place_historyAdd (recorded_len h), hi, place_head, entry_added h]

theorem newest_historyAdd (h : recorded s = some line) :
    0 < (historyAdd s).histCount.val ∧
      historyGet (historyAdd s) ((historyAdd s).histCount.val - 1) = line := by
  have hcount := count_historyAdd (recorded_len h)
  have hmax := s.histCount.isLt
  have hlost : lost s ≤ 1 ∧ lost s ≤ s.histCount.val := by
    simp only [lost, histMax] at hmax ⊢
    omega
  refine ⟨by omega, get_historyAdd_newest h ?_⟩
  omega

/-- The lines of the history, from the oldest on. -/
def entries (s : Input) : List (List UInt8) :=
  (List.range s.histCount).map (historyGet s)

theorem length_entries (s : Input) : (entries s).length = s.histCount.val := by
  rw [entries, List.length_map, List.length_range]

theorem getElem_entries (hi : i < (entries s).length) : (entries s)[i] = historyGet s i := by
  simp [entries]

theorem entries_historyAdd (h : recorded s = some line) :
    entries (historyAdd s) = (entries s ++ [line]).drop (lost s) := by
  have hlen := recorded_len h
  have hcount := count_historyAdd hlen
  apply List.ext_getElem
  · rw [length_entries, List.length_drop, List.length_append, length_entries, hcount]
    rfl
  · intro i h₁ h₂
    rw [length_entries, hcount] at h₁
    rw [getElem_entries, List.getElem_drop]
    by_cases hi : i + lost s < s.histCount.val
    · rw [List.getElem_append_left (by rw [length_entries]; omega), getElem_entries,
        get_historyAdd hlen hi, Nat.add_comm]
    · have heq : i + lost s = s.histCount.val := by omega
      rw [get_historyAdd_newest h heq]
      simp [length_entries, Nat.add_comm (lost s), heq]

theorem historyAdd_none (h : recorded s = none) : historyAdd s = s := by
  rw [recorded] at h
  split at h
  · next hle => exact if_pos hle
  · cases h

/-- The history has the last of the lines, as many as it can hold. -/
def Recorded (s : Input) (lines : List (List UInt8)) : Prop :=
  entries s = lines.drop (lines.length - histMax)

theorem Recorded.count (h : Recorded s lines) : s.histCount.val = min lines.length histMax := by
  rw [← length_entries, h, List.length_drop]
  omega

theorem Recorded.get (h : Recorded s lines) (hi : i < s.histCount.val) :
    some (historyGet s i) = lines[lines.length - histMax + i]? := by
  rw [← List.getElem?_drop, ← h, List.getElem?_eq_getElem (by rwa [length_entries]),
    getElem_entries]

theorem Recorded.historyAdd (h : Recorded s lines) :
    Recorded (historyAdd s) (lines ++ (recorded s).toList) := by
  cases hr : recorded s with
  | none =>
    rw [historyAdd_none hr]
    simpa using h
  | some line =>
    have hcount := h.count
    have hdrop : lines.length - histMax + lost s = lines.length + 1 - histMax := by
      simp only [lost, hcount, histMax]
      omega
    rw [Recorded, entries_historyAdd hr, h, Option.toList_some, List.length_append,
      List.length_singleton, ← hdrop, ← List.drop_append_of_le_length (Nat.sub_le _ _),
      List.drop_drop]

/-- The buffer when `history_add` is called. -/
structure Finished where
  buf : Fin inputBuf → UInt8
  r : UInt32
  e : UInt32

def Finished.input (x : Finished) (s : Input) : Input :=
  { s with buf := x.buf, r := x.r, e := x.e }

/-- The line that `history_add` records then, if it does. -/
def Finished.line (x : Finished) : Option (List UInt8) :=
  recorded (x.input (boot fun _ => 0))

def recordAll (s : Input) (xs : List Finished) : Input :=
  xs.foldl (fun s x => historyAdd (x.input s)) s

theorem Recorded.all (h : Recorded s lines) (xs : List Finished) :
    Recorded (recordAll s xs) (lines ++ xs.filterMap Finished.line) := by
  induction xs generalizing s lines with
  | nil =>
    rw [List.filterMap_nil, List.append_nil]
    exact h
  | cons x xs ih =>
    have hx : Recorded (x.input s) lines := h
    have hadd : Recorded (Console.historyAdd (x.input s)) (lines ++ x.line.toList) := hx.historyAdd
    have hrest := ih hadd
    rw [List.append_assoc] at hrest
    rw [List.filterMap_cons]
    cases hl : x.line with
    | none =>
      rw [hl] at hrest
      exact hrest
    | some line =>
      rw [hl] at hrest
      exact hrest

theorem recordAll_pos (h : s.histPos = -1) (xs : List Finished) : (recordAll s xs).histPos = -1 := by
  induction xs generalizing s with
  | nil => exact h
  | cons x xs ih => exact ih (historyAdd_pos (s := x.input s) h)

theorem recorded_boot (behind : Nat → UInt8) : Recorded (boot behind) [] :=
  rfl

/-- The history is that of `s`, nothing is ready, and the line is the one at `hist_pos`. -/
structure Browsing (s t : Input) : Prop where
  keeps : Keeps s t
  held : t.held ≤ inputBuf
  ready : t.r = t.w
  browses : Browses t
  shows : 0 ≤ t.histPos → t.editor.l = historyGet s t.histPos.toNat

theorem Keeps.recalled (h : Keeps s t) (i : Int) : recalled t i = recalled s i := by
  rw [Console.recalled, Console.recalled, h.get]

theorem Browsing.restore {i : Int} (h : Browsing s t) (hlow : -1 ≤ i) (hi : i < s.histCount.val) :
    ∃ u, historyRestore { t with histPos := i } i = .ok u ∧ Browsing s u ∧ u.histPos = i ∧
      u.editor.l = recalled s i := by
  have hkeeps : Keeps s { t with histPos := i } := ⟨h.keeps.history, h.keeps.count, h.keeps.head⟩
  obtain ⟨u, hu, hd, hr, hw, hpos, hkeeps'⟩ :=
    historyRestore_ok (s := { t with histPos := i }) (i := i) h.held (by rw [hkeeps.count]; exact hi)
  have hq : t.editor.q = [] := by
    simp [Input.editor, h.ready, window]
  have hline : u.editor.l = recalled s i := by
    have hlen := recalled_length s i
    rw [hd, hkeeps.recalled i]
    show (recalled s i).take (inputBuf - t.editor.q.length) = recalled s i
    rw [hq, List.length_nil, Nat.sub_zero, List.take_of_length_le hlen.le]
  refine ⟨u, hu, ⟨hkeeps.trans hkeeps', ?_, ?_, ?_, ?_⟩, hpos, hline⟩
  · have hq' : u.editor.q = [] := by rw [hd]; exact hq
    rw [u.held_eq, Editor.size, hq', hline, List.length_nil, Nat.zero_add]
    exact (recalled_length s i).le
  · rw [hr, hw]
    exact h.ready
  · constructor
    · rw [hpos]
      exact hlow
    · rw [hpos, hkeeps'.count, hkeeps.count]
      exact hi
  · intro h0
    rw [hpos] at h0 ⊢
    rw [hline, recalled, if_neg (Int.not_lt.2 h0)]

def upFrom (count : Nat) (pos : Int) : Int :=
  if pos = -1 then count - 1 else if 0 < pos then pos - 1 else pos

section Arrows
variable {s t : Input}

theorem Browsing.up (h : Browsing s t) (hc : 0 < s.histCount.val) :
    ∃ u, act t .up = .ok u ∧ Browsing s u ∧ u.histPos = upFrom s.histCount t.histPos := by
  obtain ⟨hlow, hhigh⟩ := h.browses
  have hcount : t.histCount.val = s.histCount.val := congrArg Fin.val h.keeps.count
  have hup : arrowUp t = historyRestore { t with histPos := upFrom s.histCount t.histPos }
      (upFrom s.histCount t.histPos) := by
    have hpos : (0 : Fin (histMax + 1)) < t.histCount := by
      rw [h.keeps.count]
      exact hc
    rw [arrowUp, if_pos hpos, hcount]
    rfl
  have hin : -1 ≤ upFrom s.histCount t.histPos ∧
      upFrom s.histCount t.histPos < s.histCount.val := by
    rw [upFrom]
    split
    · omega
    · split
      · omega
      · omega
  obtain ⟨u, hu, hb, hpos, -⟩ := h.restore hin.1 hin.2
  exact ⟨u, hup.trans hu, hb, hpos⟩

theorem Browsing.down (h : Browsing s t) (h0 : 0 ≤ t.histPos)
    (hlt : t.histPos < s.histCount.val - 1) :
    ∃ u, act t .down = .ok u ∧ Browsing s u ∧ u.histPos = t.histPos + 1 := by
  have hcount : t.histCount.val = s.histCount.val := congrArg Fin.val h.keeps.count
  obtain ⟨u, hu, hb, hpos, -⟩ := h.restore (i := t.histPos + 1) (by omega) (by omega)
  refine ⟨u, ?_, hb, hpos⟩
  rw [act, arrowDown, if_neg (by omega), if_pos (by omega), hu]

theorem Browsing.leave (h : Browsing s t) (h0 : 0 ≤ t.histPos)
    (hlast : t.histPos = s.histCount.val - 1) :
    ∃ u, act t .down = .ok u ∧ Browsing s u ∧ u.histPos = -1 ∧ u.editor.l = [] := by
  have hcount : t.histCount.val = s.histCount.val := congrArg Fin.val h.keeps.count
  obtain ⟨u, hu, hb, hpos, hline⟩ := h.restore (i := -1) (Int.le_refl _) (by omega)
  refine ⟨u, ?_, hb, hpos, hline⟩
  rw [act, arrowDown, if_neg (by omega), if_neg (by omega), hu]

theorem Browsing.arrow (h : Browsing s t) (ha : a = .up ∨ a = .down) :
    ∃ u, act t a = .ok u ∧ Browsing s u := by
  obtain ⟨hlow, hhigh⟩ := h.browses
  have hcount : t.histCount.val = s.histCount.val := congrArg Fin.val h.keeps.count
  rcases ha with rfl | rfl
  · by_cases hc : 0 < s.histCount.val
    · obtain ⟨u, hu, hb, -⟩ := h.up hc
      exact ⟨u, hu, hb⟩
    · have hzero : ¬ (0 : Fin (histMax + 1)) < t.histCount := by
        rw [h.keeps.count]
        exact hc
      exact ⟨t, if_neg hzero, h⟩
  · by_cases hpos : t.histPos = -1
    · exact ⟨t, if_pos hpos, h⟩
    · by_cases hlt : t.histPos < s.histCount.val - 1
      · obtain ⟨u, hu, hb, -⟩ := h.down (by omega) hlt
        exact ⟨u, hu, hb⟩
      · obtain ⟨u, hu, hb, -⟩ := h.leave (by omega) (by omega)
        exact ⟨u, hu, hb⟩

theorem Browsing.arrows {as : List Action} (h : Browsing s t)
    (has : ∀ a ∈ as, a = .up ∨ a = .down) : ∃ u, as.foldlM act t = .ok u ∧ Browsing s u := by
  induction as generalizing t with
  | nil => exact ⟨t, rfl, h⟩
  | cons a as ih =>
    obtain ⟨ha, has⟩ := List.forall_mem_cons.1 has
    obtain ⟨u, hu, hb⟩ := h.arrow ha
    obtain ⟨v, hv, hb'⟩ := ih hb has
    refine ⟨v, ?_, hb'⟩
    rw [List.foldlM_cons, hu]
    exact hv

theorem Browsing.ups (h : Browsing s t) (h0 : 0 ≤ t.histPos) (k : Nat) :
    ∃ u, (List.replicate k Action.up).foldlM act t = .ok u ∧ Browsing s u ∧
      u.histPos = max (t.histPos - k) 0 := by
  induction k generalizing t with
  | zero => exact ⟨t, rfl, h, by omega⟩
  | succ k ih =>
    have hhigh := h.browses.high
    have hcount : t.histCount.val = s.histCount.val := congrArg Fin.val h.keeps.count
    obtain ⟨u, hu, hb, hpos⟩ := h.up (by omega)
    have hup : u.histPos = max (t.histPos - 1) 0 := by
      rw [hpos, upFrom, if_neg (by omega)]
      split
      · omega
      · omega
    obtain ⟨v, hv, hb', hpos'⟩ := ih hb (by omega)
    refine ⟨v, ?_, hb', by omega⟩
    rw [List.replicate_succ, List.foldlM_cons, hu]
    exact hv

theorem Browsing.newest (h : Browsing s t) (hpos : t.histPos = -1) (hc : 0 < s.histCount.val)
    (hk : 0 < k) :
    ∃ u, (List.replicate k Action.up).foldlM act t = .ok u ∧
      u.editor.l = historyGet s (s.histCount.val - min k s.histCount.val) := by
  obtain ⟨k, rfl⟩ := Nat.exists_eq_succ_of_ne_zero (Nat.ne_of_gt hk)
  obtain ⟨u, hu, hb, hpos'⟩ := h.up hc
  rw [hpos, upFrom, if_pos rfl] at hpos'
  obtain ⟨v, hv, hb', hpos''⟩ := hb.ups (by omega) k
  refine ⟨v, ?_, ?_⟩
  · rw [List.replicate_succ, List.foldlM_cons, hu]
    exact hv
  · rw [hb'.shows (by omega)]
    congr 1
    omega

theorem Browsing.back (h : Browsing s t) (h0 : 0 < t.histPos) :
    ∃ u, [Action.up, .down].foldlM act t = .ok u ∧ u.histPos = t.histPos ∧
      u.editor.l = t.editor.l := by
  have hhigh := h.browses.high
  have hcount : t.histCount.val = s.histCount.val := congrArg Fin.val h.keeps.count
  obtain ⟨u, hu, hb, hpos⟩ := h.up (by omega)
  rw [upFrom, if_neg (by omega), if_pos h0] at hpos
  obtain ⟨v, hv, hb', hpos'⟩ := hb.down (by omega) (by omega)
  have hsame : v.histPos = t.histPos := by omega
  refine ⟨v, ?_, hsame, ?_⟩
  · rw [List.foldlM_cons, hu, ok_bind, List.foldlM_cons, hv]
    rfl
  · rw [hb'.shows (by omega), h.shows (by omega), hsame]

end Arrows

/-- A console after calls of `history_add`, with nothing ready. -/
def browsed (behind : Nat → UInt8) (xs : List Finished) (buf : Fin inputBuf → UInt8)
    (r e : UInt32) : Input :=
  { recordAll (boot behind) xs with buf := buf, r := r, w := r, e := e }

theorem browsing_start (behind : Nat → UInt8) (xs : List Finished) (buf : Fin inputBuf → UInt8)
    (he : ahead r e ≤ inputBuf) :
    Browsing (browsed behind xs buf r e) (browsed behind xs buf r e) := by
  have hpos : (browsed behind xs buf r e).histPos = -1 := recordAll_pos rfl xs
  refine ⟨.refl _, ?_, rfl, ⟨?_, ?_⟩, ?_⟩
  · show ahead r r + ahead r e ≤ inputBuf
    rwa [ahead_self, Nat.zero_add]
  · rw [hpos]
  · rw [hpos]
    omega
  · intro h0
    rw [hpos] at h0
    omega

/-- The history has the last lines, in order, and the arrows walk through it. -/
theorem history_browsing (behind : Nat → UInt8) (xs : List Finished) (buf : Fin inputBuf → UInt8)
    (r e : UInt32) (he : ahead r e ≤ inputBuf) (hs : s = browsed behind xs buf r e)
    (hl : lines = xs.filterMap Finished.line) :
    s.histCount.val = min lines.length histMax ∧
      (∀ i < s.histCount.val, lines[lines.length - histMax + i]? = some (historyGet s i)) ∧
      ∀ as : List Action, (∀ a ∈ as, a = .up ∨ a = .down) → ∃ t, as.foldlM act s = .ok t ∧
        -1 ≤ t.histPos ∧ t.histPos < t.histCount.val ∧ t.histCount = s.histCount ∧
        (0 ≤ t.histPos → t.editor.l = historyGet s t.histPos.toNat) ∧
        (t.histPos = -1 → 0 < s.histCount.val → ∀ k, 0 < k →
          ∃ u, (List.replicate k Action.up).foldlM act t = .ok u ∧
            u.editor.l = historyGet s (s.histCount.val - min k s.histCount.val)) ∧
        (0 < t.histPos → ∃ u, [Action.up, .down].foldlM act t = .ok u ∧
          u.histPos = t.histPos ∧ u.editor.l = t.editor.l) ∧
        (0 ≤ t.histPos → t.histPos = s.histCount.val - 1 → ∃ u, act t .down = .ok u ∧
          u.editor.l = [] ∧ u.histPos = -1) := by
  subst hs hl
  have hrec : Recorded (browsed behind xs buf r e) (xs.filterMap Finished.line) :=
    (recorded_boot behind).all xs
  refine ⟨hrec.count, fun i hi => (hrec.get hi).symm, ?_⟩
  intro as has
  obtain ⟨t, ht, hb⟩ := (browsing_start behind xs buf he).arrows has
  refine ⟨t, ht, hb.browses.low, hb.browses.high, hb.keeps.count, hb.shows, ?_, hb.back, ?_⟩
  · intro hpos hc k hk
    exact hb.newest hpos hc hk
  · intro h0 hlast
    obtain ⟨u, hu, -, hpos, hline⟩ := hb.leave h0 hlast
    exact ⟨u, hu, hline, hpos⟩

def twoLines : List Finished :=
  [⟨fun i => if i = 0 then char 'a' else nl, 0, 2⟩, ⟨fun i => if i = 2 then char 'b' else nl, 2, 4⟩]

theorem history_browsing_twoLines :
    twoLines.filterMap Finished.line = [[char 'a'], [char 'b']] ∧
      ∃ t, [Action.up, .up, .down].foldlM act (browsed (fun _ => 0) twoLines (fun _ => 0) 4 4) = .ok t ∧
        -1 ≤ t.histPos ∧ t.histPos < t.histCount.val := by
  obtain ⟨-, -, h⟩ := history_browsing (fun _ => 0) twoLines (fun _ => 0) 4 4 (by decide) rfl rfl
  obtain ⟨t, ht, hlow, hhigh, -⟩ := h [.up, .up, .down] (by decide)
  exact ⟨by decide +kernel, t, ht, hlow, hhigh⟩

end Xv6.Console
