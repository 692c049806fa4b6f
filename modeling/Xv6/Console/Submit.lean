import Mathlib.Data.List.TakeWhile
import Xv6.Console.History
import Xv6.Console.Readers

namespace Xv6.Console
open Lib
set_option autoImplicit true

theorem toInt_eq (x : UInt32) :
    x.toInt32.toInt = if x.toNat < 2 ^ 31 then (x.toNat : Int) else x.toNat - 2 ^ 32 := by
  have hcond := x.toBitVec.toInt_eq_toNat_cond
  have hval : x.toBitVec.toNat = x.toNat := rfl
  rw [hval] at hcond
  refine hcond.trans ?_
  split
  · rw [if_pos (by omega)]
  · rw [if_neg (by omega)]
    rfl

theorem ofInt_natCast {n : Nat} (h : n < 2 ^ 32) : UInt32.ofInt n = UInt32.ofNat n := by
  rw [UInt32.ofInt]
  congr 1
  omega

theorem ofInt_toInt (x : UInt32) : UInt32.ofInt x.toInt32.toInt = x := by
  have hlt := x.toNat_lt
  have hmod : (x.toInt32.toInt % 2 ^ 32).toNat = x.toNat := by
    rw [toInt_eq]
    split
    · omega
    · omega
  rw [UInt32.ofInt, hmod, UInt32.ofNat_toNat]

theorem lineStart_free (buf : Fin inputBuf → UInt8) (r : Int) (n : Nat) :
    lineStart buf r n ≤ n ∧
      ∀ j, lineStart buf r n ≤ j → j < n → buf (Fin.ofNat inputBuf j) ≠ nl := by
  induction n with
  | zero => exact ⟨Nat.le_refl 0, fun j _ hj => absurd hj (Nat.not_lt_zero j)⟩
  | succ n ih =>
    rw [lineStart]
    split
    · next hc =>
      refine ⟨Nat.le_succ_of_le ih.1, ?_⟩
      intro j hle hlt
      rcases Nat.lt_succ_iff_lt_or_eq.1 hlt with hlt | rfl
      · exact ih.2 j hle hlt
      · exact hc.2
    · refine ⟨Nat.le_refl _, ?_⟩
      intro j hle hlt
      omega

theorem lineStart_eq {r : Int} {w n : Nat} (hr : r ≤ w) (hline : ∀ j < n, buf (Fin.ofNat inputBuf (w + j)) ≠ nl)
    (hstop : w = 0 ∨ r = w ∨ buf (Fin.ofNat inputBuf (w - 1)) = nl) :
    lineStart buf r (w + n) = w := by
  induction n with
  | zero =>
    cases w with
    | zero => rfl
    | succ w =>
      rw [Nat.add_zero, lineStart]
      apply if_neg
      rintro ⟨hlt, hne⟩
      rcases hstop with hw | hw | hw
      · omega
      · omega
      · exact hne hw
  | succ n ih =>
    rw [← Nat.add_assoc, lineStart, if_pos ⟨by omega, hline n (Nat.lt_succ_self n)⟩]
    exact ih fun j hj => hline j (Nat.lt_succ_of_lt hj)

section Record
variable {s : Input} {n : Nat}

theorem historyStart_eq (hn : (s.e - 1).toNat = n) (hlt : n < 2 ^ 31) :
    historyStart s = lineStart s.buf s.r.toInt32.toInt n := by
  have hstart : (s.e - 1).toInt32.toInt = n := by
    rw [toInt_eq, hn, if_pos hlt]
  rw [historyStart, hstart]
  cases n with
  | zero => rfl
  | succ n =>
    rw [if_pos (by omega)]
    rfl

theorem historyLen_eq (hn : (s.e - 1).toNat = n) (hlt : n < 2 ^ 31) :
    historyLen s ≤ n - lineStart s.buf s.r.toInt32.toInt n + 1 ∧
      (n - lineStart s.buf s.r.toInt32.toInt n + 1 < 2 ^ 31 →
        historyLen s = n - lineStart s.buf s.r.toInt32.toInt n + 1) := by
  have hle := (lineStart_free s.buf s.r.toInt32.toInt n).1
  rw [historyLen, historyStart_eq hn hlt]
  generalize lineStart s.buf s.r.toInt32.toInt n = k at hle
  have he : s.e = UInt32.ofNat k + UInt32.ofNat (n - k + 1) := by
    have hpred : s.e = s.e - 1 + 1 := (UInt32.sub_add_cancel s.e 1).symm
    rw [hpred, ← UInt32.ofNat_toNat (x := s.e - 1), hn, ← UInt32.ofNat_add,
      show k + (n - k + 1) = n + 1 by omega, UInt32.ofNat_add]
    rfl
  have hlen : (s.e - UInt32.ofNat k).toNat = n - k + 1 := by
    have hahead := ahead_add (UInt32.ofNat k) (n := n - k + 1) (by omega)
    rwa [← he] at hahead
  rw [ofInt_natCast (by omega), toInt_eq, hlen]
  split
  · exact ⟨by omega, fun _ => by omega⟩
  · exact ⟨by omega, fun h => by omega⟩

theorem historyLen_one (h : 2 ^ 31 ≤ (s.e - 1).toNat) : historyLen s = 1 := by
  have hneg : ¬ 0 < (s.e - 1).toInt32.toInt := by
    have hlt := (s.e - 1).toNat_lt
    rw [toInt_eq, if_neg (by omega)]
    omega
  rw [historyLen, historyStart, if_neg hneg, ofInt_toInt, sub_sub_cancel]
  rfl

theorem recorded_free (h : recorded s = some line) : nl ∉ line := by
  rw [recorded] at h
  obtain ⟨hlen, h⟩ := Option.ite_none_left_eq_some.1 h
  have hlt : (s.e - 1).toNat < 2 ^ 31 := by
    by_contra hge
    rw [historyLen_one (Nat.le_of_not_lt hge)] at hlen
    exact hlen (Int.le_refl 1)
  obtain rfl := Option.some.inj h
  intro hm
  obtain ⟨j, hj⟩ := List.mem_ofFn.1 ((List.takeWhile_sublist _).subset hm)
  have hle := (historyLen_eq rfl hlt).1
  have hjlt := j.isLt
  rw [historyStart_eq rfl hlt] at hj
  apply (lineStart_free s.buf s.r.toInt32.toInt (s.e - 1).toNat).2 _ (Nat.le_add_right _ j) _ hj
  omega

end Record

def Stored (s : Input) : Prop :=
  ∀ k, nl ∉ entry (s.history k)

theorem Stored.keeps (h : Stored s) (hk : Keeps s s') : Stored s' := by
  intro k
  rw [hk.history]
  exact h k

theorem Stored.historyAdd (h : Stored s) : Stored (historyAdd s) := by
  intro k
  cases hr : recorded s with
  | none =>
    rw [historyAdd_none hr]
    exact h k
  | some line =>
    by_cases hk : k = s.histHead
    · rw [hk, entry_added hr]
      exact recorded_free hr
    · rw [historyAdd_eq (recorded_len hr)]
      show nl ∉ entry (Function.update s.history s.histHead _ k)
      rw [Function.update_of_ne hk]
      exact h k

theorem Stored.insert (h : Stored s) (c : UInt8) : Stored (insert s c) := by
  have hput : Stored (Input.put { s with histPos := -1 } c) := h
  rw [Console.insert]
  split
  · rw [submit]
    split
    · exact hput.historyAdd
    · exact hput
  · exact hput

theorem Stored.type (h : Stored s) (c : UInt8) : Stored (type s c) := by
  rw [Console.type]
  split
  · exact h.insert _
  · exact h

theorem Stored.key (h : Stored s) (hc : c ≠ tab) (hs : key s c = .ok s') : Stored s' := by
  rw [Console.key] at hs
  split at hs
  · exact Except.ok.inj hs ▸ h
  · split at hs
    · exact Except.ok.inj hs ▸ h
    · split at hs
      · have hb : Stored (backspace s) := by
          rw [backspace]
          split
          · exact h
          · exact h
        exact Except.ok.inj hs ▸ hb
      · split at hs
        · exact Except.ok.inj hs ▸ h
        · exact Except.ok.inj hs ▸ h.type c

/-- No byte of a console is 0, and the line has no newline. -/
structure Clean (d : Editor) : Prop where
  fits : Fits d
  bytes : 0 ∉ d.q ++ d.l
  line : nl ∉ d.l

section Clean
variable {d d' : Editor}

theorem Clean.edit (h : Clean d) (hf : Fits ⟨d.q, l⟩) (h0 : 0 ∉ l) (hnl : nl ∉ l) :
    Clean ⟨d.q, l⟩ := by
  refine ⟨hf, ?_, hnl⟩
  rw [List.mem_append, not_or]
  exact ⟨fun hm => h.bytes (List.mem_append_left _ hm), h0⟩

theorem Clean.shorten (h : Clean d) (hl : l.Sublist d.l) : Clean ⟨d.q, l⟩ :=
  h.edit (h.fits.edit hl.length_le) (fun hm => h.bytes (List.mem_append_right _ (hl.subset hm)))
    fun hm => h.line (hl.subset hm)

theorem Clean.insert (h : Clean d) (hs : d.size < inputBuf) (hc : c ≠ 0) : Clean (d.insert c) := by
  have hfits := Fits.insert hs c
  have hbytes := h.bytes
  rw [List.mem_append, not_or] at hbytes
  rw [Editor.insert] at hfits ⊢
  split at hfits
  · next hend =>
    rw [if_pos hend]
    refine ⟨hfits, ?_, List.not_mem_nil⟩
    simp [hbytes.1, hbytes.2, Ne.symm hc]
  · next hend =>
    rw [if_neg hend]
    rw [not_or] at hend
    refine h.edit hfits ?_ ?_
    · simp [hbytes.2, Ne.symm hc]
    · simp [h.line, Ne.symm hend.1]

theorem Clean.type (h : Clean d) (c : UInt8) : Clean (d.type c) := by
  rw [Editor.type]
  split
  · next hc =>
    apply h.insert hc.2
    split
    · decide
    · exact hc.1
  · exact h

theorem Clean.key (h : Clean d) (c : UInt8) : Clean (d.key c) := by
  rw [Editor.key]
  split
  · exact h
  · split
    · exact h.shorten (List.rdropWhile_prefix _ _).sublist
    · split
      · exact h.shorten (List.dropLast_sublist _)
      · split
        · exact h
        · exact h.type c

theorem Clean.restore {xs : List UInt8} (h : Clean d) (hlen : xs.length < inputBuf) (h0 : 0 ∉ xs)
    (hnl : nl ∉ xs) : Clean (d.restore xs) :=
  h.edit (h.fits.restore hlen) (mt List.mem_of_mem_take h0) (mt List.mem_of_mem_take hnl)

end Clean

section Complete
variable {s s' : Input}

theorem command_chars : ∀ name ∈ commands, name.length < 16 ∧ 0 ∉ name ∧ nl ∉ name := by
  decide

theorem puts_frame (s : Input) (xs : List UInt8) :
    (xs.foldl Input.put s).r = s.r ∧ (xs.foldl Input.put s).w = s.w ∧
      (xs.foldl Input.put s).histPos = s.histPos ∧ Keeps s (xs.foldl Input.put s) := by
  induction xs generalizing s with
  | nil => exact ⟨rfl, rfl, rfl, .refl s⟩
  | cons c xs ih =>
    obtain ⟨hr, hw, hpos, hkeeps⟩ := ih (s.put c)
    exact ⟨hr, hw, hpos, hkeeps.history, hkeeps.count, hkeeps.head⟩

theorem editor_puts {xs : List UInt8} (h : s.held + xs.length ≤ inputBuf) :
    (xs.foldl Input.put s).editor = ⟨s.editor.q, s.editor.l ++ xs⟩ := by
  induction xs generalizing s with
  | nil => simp
  | cons c xs ih =>
    rw [List.length_cons] at h
    have hlt : s.held < inputBuf := by omega
    rw [List.foldl_cons, ih (by rw [held_put hlt]; omega), editor_put hlt]
    simp

theorem autocomplete_cases (h : autocomplete s = .ok s') :
    s' = s ∨ ∃ name ∈ commands, ahead s.r s.e ≤ name.length ∧
      s' = (name.drop (ahead s.r s.e)).foldl Input.put s := by
  rw [autocomplete] at h
  split at h
  · next name hname =>
    have hmem : name ∈ commands := by
      have hmem : name ∈ commands.filter fun name => strncmp name s.line (s.e - s.r).toNat := by
        rw [hname]
        exact List.mem_singleton_self name
      exact List.mem_of_mem_filter hmem
    obtain ⟨hlen, h⟩ := if_ok h
    exact .inr ⟨name, hmem, hlen, (Except.ok.inj h).symm⟩
  · exact .inl (Except.ok.inj h).symm

theorem editor_completed (hh : s.held ≤ inputBuf) (hn : name ∈ commands)
    (hlen : ahead s.r s.e ≤ name.length) :
    ((name.drop (ahead s.r s.e)).foldl Input.put s).editor =
      ⟨s.editor.q, s.editor.l ++ name.drop (ahead s.r s.e)⟩ := by
  apply editor_puts
  have hname := (command_chars name hn).1
  rw [List.length_drop, ← ahead_edit hh]
  simp only [inputBuf]
  omega

end Complete

/-- What holds of every console that can be reached, with `TAB`. -/
structure Sane (s : Input) : Prop where
  clean : Clean s.editor
  browses : Browses s
  stored : Stored s

section Sane
variable {s s' : Input} {a : Action}

theorem Sane.held (h : Sane s) : s.held ≤ inputBuf := by
  rw [s.held_eq]
  exact h.clean.fits.size

theorem Sane.tab (h : Sane s) (hs : autocomplete s = .ok s') : Sane s' := by
  rcases autocomplete_cases hs with rfl | ⟨name, hn, hlen, rfl⟩
  · exact h
  · obtain ⟨hr, hw, hpos, hkeeps⟩ := puts_frame s (name.drop (ahead s.r s.e))
    obtain ⟨hshort, h0, hnl⟩ := command_chars name hn
    have hsize : s.editor.q.length + s.editor.l.length = ahead s.r s.e := by
      rw [ahead_edit h.held, s.held_eq]
      rfl
    have hbytes := h.clean.bytes
    rw [List.mem_append, not_or] at hbytes
    refine ⟨?_, ?_, h.stored.keeps hkeeps⟩
    · rw [editor_completed h.held hn hlen]
      apply h.clean.edit
      · constructor
        · simp only [Editor.size, List.length_append, List.length_drop, inputBuf]
          omega
        · simp only [List.length_append, List.length_drop, inputBuf]
          omega
      · rw [List.mem_append, not_or]
        exact ⟨hbytes.2, mt List.mem_of_mem_drop h0⟩
      · rw [List.mem_append, not_or]
        exact ⟨h.clean.line, mt List.mem_of_mem_drop hnl⟩
    · constructor
      · rw [hpos]
        exact h.browses.low
      · rw [hpos, hkeeps.count]
        exact h.browses.high

theorem entry_nul (line : Fin inputBuf → UInt8) : 0 ∉ entry line := by
  intro hm
  have hne := List.mem_takeWhile_imp (p := fun c : UInt8 => decide (c ≠ 0)) hm
  exact of_decide_eq_true hne rfl

theorem Stored.recalled (h : Stored s) (i : Int) : 0 ∉ recalled s i ∧ nl ∉ recalled s i := by
  rw [Console.recalled]
  split
  · exact ⟨List.not_mem_nil, List.not_mem_nil⟩
  · rw [historyGet_eq]
    exact ⟨entry_nul _, h _⟩

theorem Sane.restore {i : Int} (h : Sane s) (hlow : -1 ≤ i) (hi : i < s.histCount.val) :
    ∃ s', historyRestore { s with histPos := i } i = .ok s' ∧ Sane s' := by
  obtain ⟨s', hs, hd, -, -, hpos, hkeeps⟩ :=
    historyRestore_ok (s := { s with histPos := i }) h.held hi
  have hstored : Stored { s with histPos := i } := h.stored
  obtain ⟨h0, hnl⟩ := hstored.recalled i
  refine ⟨s', hs, ?_, ?_, hstored.keeps hkeeps⟩
  · rw [hd]
    exact h.clean.restore (recalled_length _ i) h0 hnl
  · constructor
    · rw [hpos]
      exact hlow
    · rw [hpos, hkeeps.count]
      exact hi

theorem Sane.act (h : Sane s) (hs : act s a = .ok s') : Sane s' := by
  by_cases hkey : ∃ c, a = .key c
  · obtain ⟨c, rfl⟩ := hkey
    by_cases hc : c = Console.tab
    · subst hc
      exact h.tab hs
    · obtain ⟨t, ht, -, hd, hb⟩ := round_key h.held h.browses hc
      obtain rfl := Except.ok.inj (ht.symm.trans hs)
      refine ⟨?_, hb, h.stored.key hc hs⟩
      rw [hd]
      exact h.clean.key c
  · rcases arrow_cases h.browses (Action.arrow_of_not_key (not_exists.1 hkey)) with
      hsame | ⟨i, hlow, hi, hrest⟩
    · obtain rfl := Except.ok.inj (hsame.symm.trans hs)
      exact h
    · obtain ⟨t, ht, hsane⟩ := h.restore hlow hi
      obtain rfl := Except.ok.inj ((hrest.trans ht).symm.trans hs)
      exact hsane

end Sane

/-- A process is in one call at a time; every byte may be typed. -/
def allowed (s : St) : Event → Bool
  | .intr _ => true
  | .read p _ => (s.reader p).isNone
  | .go p _ => (s.reader p).isSome

theorem Sane.rounds {s s' : St} {as : List Action} (h : Sane s.input)
    (hs : as.foldlM St.act s = .ok s') : Sane s'.input := by
  induction as generalizing s with
  | nil =>
    cases hs
    exact h
  | cons a as ih =>
    rw [List.foldlM_cons] at hs
    obtain ⟨t, ht, hs⟩ := bind_ok hs
    obtain ⟨input, hi, ht⟩ := bind_ok ht
    cases ht
    exact ih (h.act hi) hs

theorem consoleread_input (s : St) (p : Pid) (k : Reader) (killed : Bool) :
    (consoleread s p k killed).input = s.input ∨
      s.input.r ≠ s.input.w ∧ (consoleread s p k killed).input = s.take.input := by
  rw [consoleread]
  split
  · exact .inl rfl
  · split
    · split
      · exact .inl rfl
      · exact .inl rfl
    · next hr =>
      dsimp only
      split
      · split
        · exact .inl rfl
        · exact .inr ⟨hr, rfl⟩
      · split
        · exact .inr ⟨hr, rfl⟩
        · exact .inr ⟨hr, rfl⟩

theorem Sane.take {s : St} (h : Sane s.input) (hr : s.input.r ≠ s.input.w) : Sane s.take.input := by
  have hd := editor_take s hr
  have hclean := h.clean
  rw [hd] at hclean
  refine ⟨⟨hclean.fits.front, ?_, hclean.line⟩, ⟨h.browses.low, h.browses.high⟩, h.stored⟩
  intro hm
  exact hclean.bytes (List.mem_cons_of_mem _ hm)

theorem Sane.step {s s' : St} (h : Sane s.input) (hs : step s e = .ok s') : Sane s'.input := by
  cases e with
  | intr xs => exact h.rounds hs
  | read p n =>
    cases hs
    exact h
  | go p killed =>
    rw [Console.step] at hs
    split at hs
    · next k hk =>
      cases hs
      rcases consoleread_input s p k killed with hi | ⟨hr, hi⟩
      · rw [hi]
        exact h
      · rw [hi]
        exact h.take hr
    · cases hs

theorem sane_start (behind : Nat → UInt8) : Sane (start behind).input := by
  have hinv := inv_start behind
  have hd : (start behind).input.editor = ⟨[], []⟩ := by
    simp [start, boot, Input.editor, window]
  refine ⟨⟨hinv.fits, ?_, ?_⟩, hinv.browses, ?_⟩
  · rw [hd]
    exact List.not_mem_nil
  · rw [hd]
    exact List.not_mem_nil
  · intro k
    have hnil : entry ((start behind).input.history k) = [] := by
      rw [entry]
      rfl
    rw [hnil]
    exact List.not_mem_nil

theorem sane_exec (h : Exec step (fun s e => allowed s e) (start behind) es s) : Sane s.input :=
  h.invariant (I := fun s => Sane s.input) (sane_start behind) fun _ _ _ hi _ ho => hi.step ho

section Newline
variable {s : Input} {c : UInt8}

theorem line_char (hj : s.editor.l[j]? = some c) :
    s.buf (Fin.ofNat inputBuf (s.w.toNat + j)) = c := by
  have hlt : j < ahead s.w s.e := by
    obtain ⟨hlt, -⟩ := List.getElem?_eq_some_iff.1 hj
    rwa [Input.editor, window_length] at hlt
  have hget := getElem?_window s.buf s.w hlt
  rw [slot_add inputBuf_dvd] at hget
  exact Option.some.inj (hget.symm.trans hj)

theorem ready_last (hq : s.editor.q.getLast? = some c) (hw : 0 < s.w.toNat) :
    s.buf (Fin.ofNat inputBuf (s.w.toNat - 1)) = c := by
  have hlen : s.editor.q.length = ahead s.r s.w := window_length ..
  have hpos : 0 < ahead s.r s.w := by
    rw [← hlen, List.length_pos_iff]
    rintro hnil
    rw [hnil] at hq
    cases hq
  have hplace : s.r + UInt32.ofNat (ahead s.r s.w - 1) = s.w - 1 := by
    have hsucc : UInt32.ofNat (ahead s.r s.w) = UInt32.ofNat (ahead s.r s.w - 1) + 1 := by
      rw [← Nat.sub_add_cancel hpos, UInt32.ofNat_add]
      rfl
    have hadd := add_ahead s.r s.w
    rw [hsucc, ← UInt32.add_assoc] at hadd
    exact eq_sub_of_add_eq hadd
  have hget := getElem?_window s.buf s.r (n := ahead s.r s.w) (j := ahead s.r s.w - 1) (by omega)
  rw [List.getLast?_eq_getElem?, hlen] at hq
  rw [hplace] at hget
  have hc := Option.some.inj (hget.symm.trans hq)
  have hpred : (s.w - 1).toNat = s.w.toNat - 1 := by
    rw [UInt32.toNat_sub_of_le]
    · rfl
    · exact UInt32.le_iff_toNat_le.2 hw
  rwa [slot, hpred] at hc

/-- The console with a newline put at the end of its line. -/
structure Ended (s t : Input) : Prop where
  editor : t.editor = ⟨s.editor.q, s.editor.l ++ [nl]⟩
  r : t.r = s.r
  w : t.w = s.w
  e : t.e = s.e + 1
  keeps : Keeps s t

theorem Ended.start (h : Ended s t) (hs : Sane s)
    (hq : s.editor.q = [] ∨ s.editor.q.getLast? = some nl)
    (hlt : s.w.toNat + s.editor.l.length < 2 ^ 31) :
    (t.e - 1).toNat = s.w.toNat + s.editor.l.length ∧
      lineStart t.buf t.r.toInt32.toInt (s.w.toNat + s.editor.l.length) = s.w.toNat := by
  have hlen : s.editor.l.length = ahead s.w s.e := window_length ..
  have hqlen : s.editor.q.length = ahead s.r s.w := window_length ..
  have hsize := hs.clean.fits.size
  rw [Editor.size, hqlen, hlen] at hsize
  refine ⟨?_, ?_⟩
  · have he := congrArg UInt32.toNat (add_ahead s.w s.e)
    rw [UInt32.toNat_add, UInt32.toNat_ofNat'] at he
    rw [h.e, UInt32.add_sub_cancel]
    omega
  · apply lineStart_eq
    · have hr := s.r.toNat_lt
      have hahead := ahead_eq s.r s.w
      simp only [inputBuf] at hsize
      rw [h.r, toInt_eq]
      split
      · omega
      · omega
    · intro j hj
      rw [← h.w]
      have hget : t.editor.l[j]? = some s.editor.l[j] := by
        rw [h.editor, List.getElem?_append_left hj, List.getElem?_eq_getElem hj]
      rw [line_char hget]
      exact fun he => hs.clean.line (he ▸ List.getElem_mem hj)
    · rcases hq with hq | hq
      · have hzero : ahead s.r s.w = 0 := by rw [← hqlen, hq, List.length_nil]
        rw [h.r, ← ahead_eq_zero.1 hzero, toInt_eq, if_pos (by omega)]
        exact .inr (.inl rfl)
      · by_cases hw : s.w.toNat = 0
        · exact .inl hw
        · have hq' : t.editor.q.getLast? = some nl := by rw [h.editor]; exact hq
          have hlast := ready_last hq' (by rw [h.w]; omega)
          rw [h.w] at hlast
          exact .inr (.inr hlast)

theorem Ended.recorded (h : Ended s t) (hs : Sane s)
    (hq : s.editor.q = [] ∨ s.editor.q.getLast? = some nl)
    (hlt : s.w.toNat + s.editor.l.length < 2 ^ 31) :
    recorded t = if s.editor.l = [] then none else some s.editor.l := by
  obtain ⟨hn, hstart⟩ := h.start hs hq hlt
  have hline := hs.clean.fits.line
  have hlen : historyLen t = s.editor.l.length + 1 := by
    have heq := (historyLen_eq hn hlt).2
    simp only [inputBuf] at hline
    rw [hstart] at heq
    omega
  have hcopied : copied t = s.editor.l := by
    have hmin : min (historyLen t - 1).toNat (inputBuf - 1) = s.editor.l.length := by
      rw [hlen]
      omega
    apply List.ext_getElem
    · rw [copied, List.length_ofFn, hmin]
    · intro j h₁ h₂
      have hget : t.editor.l[j]? = some s.editor.l[j] := by
        rw [h.editor, List.getElem?_append_left h₂, List.getElem?_eq_getElem h₂]
      have hchar := line_char hget
      simp only [copied, List.getElem_ofFn, historyStart_eq hn hlt, hstart]
      rw [← h.w]
      exact hchar
  have htake : s.editor.l.takeWhile (· ≠ 0) = s.editor.l := by
    apply List.takeWhile_eq_self_iff.2
    intro d hd
    exact decide_eq_true fun h0 => hs.clean.bytes (List.mem_append_right _ (h0 ▸ hd))
  rw [Console.recorded, hlen, hcopied, htake]
  by_cases hnil : s.editor.l = []
  · rw [if_pos hnil, if_pos (by rw [hnil]; decide)]
  · have hpos := List.length_pos_iff.2 hnil
    rw [if_neg hnil, if_neg (by omega)]

theorem ended_put (hs : Sane s) (hroom : s.room = true) :
    Ended s (Input.put { s with histPos := -1 } nl) := by
  have hlt : Input.held { s with histPos := -1 } < inputBuf := (room_iff hs.held).1 hroom
  exact ⟨editor_put hlt nl, rfl, rfl, rfl, rfl, rfl, rfl⟩

theorem key_newline (hroom : s.room = true) (hc : c = nl ∨ c = cr) :
    key s c = .ok (submit (Input.put { s with histPos := -1 } nl) nl) := by
  have htype : type s c = insert s nl := by
    rcases hc with rfl | rfl
    · exact if_pos ⟨by decide, hroom⟩
    · exact if_pos ⟨by decide, hroom⟩
  have hkey : key s c = .ok (type s c) := by
    rcases hc with rfl | rfl
    · rfl
    · rfl
  rw [hkey, htype, insert]
  exact congrArg Except.ok (if_pos (.inl rfl))

theorem submit_newline (s : Input) : Keeps (historyAdd s) (submit s nl) :=
  ⟨rfl, rfl, rfl⟩

end Newline

/-- After a newline, and below 2^31, a newline records the line. -/
theorem newline_records_line
    (h : Exec step (fun s e => allowed s e) (start behind) es s) (hc : c = nl ∨ c = cr)
    (hroom : s.input.room = true)
    (hq : s.input.editor.q = [] ∨ s.input.editor.q.getLast? = some nl)
    (hlt : s.input.w.toNat + s.input.editor.l.length < 2 ^ 31) :
    ∃ t, act s.input (.key c) = .ok t ∧
      (s.input.editor.l ≠ [] → 0 < t.histCount.val ∧
        historyGet t (t.histCount.val - 1) = s.input.editor.l) ∧
      (s.input.editor.l = [] → Keeps s.input t) := by
  have hs := sane_exec h
  have hended := ended_put hs hroom
  have hrec := hended.recorded hs hq hlt
  have hkeeps := submit_newline (Input.put { s.input with histPos := -1 } nl)
  refine ⟨_, key_newline hroom hc, ?_, ?_⟩
  · intro hne
    rw [if_neg hne] at hrec
    rw [hkeeps.count, hkeeps.get]
    exact newest_historyAdd hrec
  · intro hnil
    rw [if_pos hnil] at hrec
    rw [historyAdd_none hrec] at hkeeps
    exact hended.keeps.trans hkeeps

def typeAhead : List Event :=
  [.intr [char 'a', nl, char 'b', tab, char 'c']]

theorem newline_records_line_typeAhead :
    ∃ s, Exec step (fun s e => allowed s e) (start fun _ => 0) typeAhead s ∧
      s.input.editor = ⟨[char 'a', nl], [char 'b', char 'c']⟩ ∧
      ∃ t, act s.input (.key nl) = .ok t ∧
        historyGet t (t.histCount.val - 1) = [char 'b', char 'c'] := by
  obtain ⟨s, hr, hs⟩ := (Option.any_eq_true _ _).1
    (show (runLegal step allowed (start fun _ => 0) typeAhead).any (fun s =>
      s.input.editor = ⟨[char 'a', nl], [char 'b', char 'c']⟩ ∧ s.input.room = true ∧
        s.input.w.toNat = 2) = true by decide +kernel)
  have hexec := exec_of_runLegal step allowed (start fun _ => 0) typeAhead hr
  obtain ⟨hd, hroom, hw⟩ := of_decide_eq_true hs
  obtain ⟨t, ht, hline, -⟩ := newline_records_line hexec (.inl rfl) hroom
    (.inr (by rw [hd]; rfl)) (by rw [hd, hw]; decide)
  rw [hd] at hline
  exact ⟨s, hexec, hd, t, ht, (hline (List.cons_ne_nil _ _)).2⟩

/-- With `a` and `^D` unread, the line `b` is recorded with them. -/
theorem newline_records_unread :
    ∃ s t, Exec step (fun s e => allowed s e) (start fun _ => 0)
        [.intr [char 'a', ctrl 'D', char 'b']] s ∧
      s.input.editor.l = [char 'b'] ∧ act s.input (.key nl) = .ok t ∧
      historyGet t (t.histCount.val - 1) = [char 'a', ctrl 'D', char 'b'] := by
  obtain ⟨s, hr, hs⟩ := (Option.any_eq_true _ _).1
    (show (runLegal step allowed (start fun _ => 0) [.intr [char 'a', ctrl 'D', char 'b']]).any
      (fun s => s.input.editor.l = [char 'b'] ∧ (act s.input (.key nl)).toOption.any (fun t =>
        historyGet t (t.histCount.val - 1) = [char 'a', ctrl 'D', char 'b'])) = true by
          decide +kernel)
  obtain ⟨hd, ht⟩ := of_decide_eq_true hs
  obtain ⟨t, ht, hline⟩ := (Option.any_eq_true _ _).1 ht
  exact ⟨s, t, exec_of_runLegal step allowed _ _ hr, hd, ok_of_toOption ht,
    of_decide_eq_true hline⟩

end Xv6.Console
