import Xv6.Console.Submit

namespace Xv6.Console
open Lib
set_option autoImplicit true

def strncmpReads (p : List UInt8) (q : Nat → UInt8) : Nat → Nat
  | 0 => 0
  | n + 1 =>
    match p with
    | [] => 1
    | c :: p => if c = q 0 then strncmpReads p (fun i => q (i + 1)) n + 1 else 1

/-- The places that `autocomplete` reads to show the line; `i` is compared as unsigned. -/
def shownReads (s : Input) : List Int :=
  (List.range (s.e.toNat - s.r.toNat)).map fun k =>
    (s.r + UInt32.ofNat k).toInt32.toInt.tmod inputBuf

/-- The places that the comparisons of `autocomplete` read. -/
def comparedReads (s : Input) : List Int :=
  commands.flatMap fun name =>
    (List.range (strncmpReads name s.line (s.e - s.r).toNat)).map fun i =>
      ((s.r.toNat % inputBuf + i : Nat) : Int)

/-- The places that `autocomplete` reads, counted from `&input.buf[0]`. -/
def tabReads (s : Input) : List Int :=
  if 1 < (commands.filter fun name => strncmp name s.line (s.e - s.r).toNat).length then
    comparedReads s ++ comparedReads s ++ shownReads s
  else comparedReads s

/-- What is missing of the only command that starts with a text. -/
def completion (text : List UInt8) : List UInt8 :=
  match commands.filter fun name => text.isPrefixOf name with
  | [name] => name.drop text.length
  | _ => []

def candidates (text : List UInt8) : List (List UInt8) :=
  commands.filter fun name => text.isPrefixOf name

theorem mem_candidates : name ∈ candidates text ↔ name ∈ commands ∧ text <+: name := by
  rw [candidates, List.mem_filter, List.isPrefixOf_iff_prefix]

theorem completion_single (h : candidates text = [name]) :
    completion text = name.drop text.length := by
  rw [completion, show (commands.filter fun name => text.isPrefixOf name) = [name] from h]

theorem completion_other (h : ∀ name, candidates text ≠ [name]) : completion text = [] := by
  rw [completion]
  split
  · next name hname => exact absurd hname (h name)
  · rfl

theorem strncmp_iff {p text : List UInt8} {q : Nat → UInt8}
    (hq : ∀ i c, text[i]? = some c → q i = c) (h0 : 0 ∉ text) :
    strncmp p q text.length = true ↔ text <+: p := by
  induction text generalizing p q with
  | nil => simp [strncmp]
  | cons d text ih =>
    obtain ⟨hd, h0⟩ := not_or.1 (mt List.mem_cons.2 h0)
    have hfirst : q 0 = d := hq 0 d rfl
    have hrest : ∀ i c, text[i]? = some c → q (i + 1) = c := fun i c hc => hq (i + 1) c hc
    cases p with
    | nil => simp [strncmp, hfirst, Ne.symm hd]
    | cons c p =>
      rw [List.length_cons, strncmp, Bool.and_eq_true, ih hrest h0, hfirst, decide_eq_true_iff,
        List.cons_prefix_cons, eq_comm]

theorem strncmpReads_le (p : List UInt8) (q : Nat → UInt8) (n : Nat) : strncmpReads p q n ≤ n := by
  induction n generalizing p q with
  | zero => rw [strncmpReads]
  | succ n ih =>
    cases p with
    | nil => exact Nat.succ_le_succ (Nat.zero_le n)
    | cons c p =>
      rw [strncmpReads]
      split
      · exact Nat.succ_le_succ (ih p _)
      · exact Nat.succ_le_succ (Nat.zero_le n)

/-- The bytes in the buffer are in one piece. -/
def Straight (s : Input) : Prop :=
  s.r.toNat % inputBuf + ahead s.r s.e ≤ inputBuf

section Tab
variable {s : Input}

theorem window_edit (h : s.held ≤ inputBuf) :
    window s.buf s.r (ahead s.r s.e) = s.editor.q ++ s.editor.l := by
  rw [ahead_edit h, Input.held, window_append, add_ahead]
  rfl

theorem Straight.line (h : Straight s) (hh : s.held ≤ inputBuf)
    (hc : (s.editor.q ++ s.editor.l)[i]? = some c) : s.line i = c := by
  have hi : i < ahead s.r s.e := by
    obtain ⟨hlt, -⟩ := List.getElem?_eq_some_iff.1 hc
    rwa [← window_edit hh, window_length] at hlt
  rw [← window_edit hh, getElem?_window _ _ hi, slot_add inputBuf_dvd] at hc
  rw [Straight] at h
  rw [Input.line, if_pos (by omega), ← Option.some.inj hc]
  congr 1
  apply Fin.ext
  simp [Fin.ofNat]

theorem Straight.filter (h : Straight s) (hs : Sane s) :
    (commands.filter fun name => strncmp name s.line (s.e - s.r).toNat) =
      candidates (s.editor.q ++ s.editor.l) := by
  have hlen : (s.e - s.r).toNat = (s.editor.q ++ s.editor.l).length := by
    rw [← window_edit hs.held, window_length]
    rfl
  rw [hlen]
  apply List.filter_congr
  intro name _
  rw [Bool.eq_iff_iff, strncmp_iff (fun i c hc => h.line hs.held hc) hs.clean.bytes,
    List.isPrefixOf_iff_prefix]

theorem Straight.autocomplete (h : Straight s) (hs : Sane s) :
    autocomplete s = .ok ((completion (s.editor.q ++ s.editor.l)).foldl Input.put s) := by
  have hlen : (s.e - s.r).toNat = (s.editor.q ++ s.editor.l).length := by
    rw [← window_edit hs.held, window_length]
    rfl
  rw [Console.autocomplete, h.filter hs, hlen]
  split
  · next name hname =>
    have hmem : name ∈ candidates (s.editor.q ++ s.editor.l) := by
      rw [hname]
      exact List.mem_singleton_self name
    rw [if_pos (mem_candidates.1 hmem).2.length_le, completion_single hname]
  · next hother => rw [completion_other hother, List.foldl_nil]

theorem completion_cases (text : List UInt8) :
    completion text = [] ∨ ∃ name ∈ commands, text ++ completion text = name := by
  by_cases h : ∃ name, candidates text = [name]
  · obtain ⟨name, hname⟩ := h
    obtain ⟨hmem, hpre⟩ := mem_candidates.1 (hname ▸ List.mem_singleton_self name)
    refine .inr ⟨name, hmem, ?_⟩
    rw [completion_single hname]
    exact (List.prefix_append_drop hpre).symm
  · exact .inl (completion_other (not_exists.1 h))

theorem Straight.tab (h : Straight s) (hs : Sane s) :
    ∃ t, act s (.key tab) = .ok t ∧
      t.editor = ⟨s.editor.q, s.editor.l ++ completion (s.editor.q ++ s.editor.l)⟩ := by
  refine ⟨_, h.autocomplete hs, editor_puts ?_⟩
  have hlen : s.held = (s.editor.q ++ s.editor.l).length := by
    rw [s.held_eq, Editor.size, List.length_append]
  have hheld := hs.held
  rcases completion_cases (s.editor.q ++ s.editor.l) with hnil | ⟨name, hname, happ⟩
  · rw [hnil]
    exact hheld
  · have hshort := (command_chars name hname).1
    rw [hlen, ← List.length_append, happ]
    simp only [inputBuf]
    omega

def Between (s : Input) (a : Int) : Prop :=
  ∃ k < ahead s.r s.e, a = (slot inputBuf (s.r + UInt32.ofNat k)).val

theorem Straight.compared (h : Straight s) (ha : a ∈ comparedReads s) : Between s a := by
  obtain ⟨name, -, ha⟩ := List.mem_flatMap.1 ha
  obtain ⟨i, hi, rfl⟩ := List.mem_map.1 ha
  have hlt : i < ahead s.r s.e := Nat.lt_of_lt_of_le (List.mem_range.1 hi) (strncmpReads_le ..)
  refine ⟨i, hlt, ?_⟩
  rw [Straight] at h
  rw [slot_add inputBuf_dvd]
  simp only [Fin.ofNat, inputBuf] at h ⊢
  omega

theorem shown_between (hlt : s.r.toNat + ahead s.r s.e < 2 ^ 31) (ha : a ∈ shownReads s) :
    Between s a := by
  obtain ⟨k, hk, rfl⟩ := List.mem_map.1 ha
  have hk := List.mem_range.1 hk
  have hahead := ahead_eq s.r s.e
  have hr := s.r.toNat_lt
  have he := s.e.toNat_lt
  have hkn : k < ahead s.r s.e := by omega
  have hplace : (s.r + UInt32.ofNat k).toNat = s.r.toNat + k := by
    rw [UInt32.toNat_add, UInt32.toNat_ofNat']
    omega
  refine ⟨k, hkn, ?_⟩
  rw [toInt_eq, hplace, if_pos (by omega), slot, hplace]
  rfl

theorem Straight.reads (h : Straight s) (hlt : s.r.toNat + ahead s.r s.e < 2 ^ 31) :
    ∀ a ∈ tabReads s, Between s a := by
  intro a ha
  rw [tabReads] at ha
  split at ha
  · rw [List.mem_append, List.mem_append] at ha
    rcases ha with (ha | ha) | ha
    · exact h.compared ha
    · exact h.compared ha
    · exact shown_between hlt ha
  · exact h.compared ha

end Tab

def typeEc : Event :=
  .intr [char 'e', char 'c']

def readLines (n : Nat) : List Event :=
  .intr (List.replicate n nl) :: (List.replicate n [Event.read 1 1, Event.go 1 false]).flatten

instance (s : Input) : Decidable (Straight s) :=
  inferInstanceAs (Decidable (_ ≤ _))

def console (es : List Event) : Option St :=
  runLegal step allowed (start fun _ => 0) es

def pw : List UInt8 :=
  [char 'p', char 'w']

theorem count_commands : ∀ name ∈ commands, name ≠ pw ++ [char 'd'] → commands.count name = 1 := by
  decide

/-- The text starts one command only. -/
def Determines (text name : List UInt8) : Prop :=
  name ∈ commands ∧ text <+: name ∧ ∀ other ∈ commands, text <+: other → other = name

theorem Determines.candidates (h : Determines text name) :
    candidates text = List.replicate (commands.count name) name := by
  obtain ⟨hmem, hpre, honly⟩ := h
  rw [← List.filter_beq, Console.candidates]
  apply List.filter_congr
  intro other hother
  rw [Bool.eq_iff_iff, List.isPrefixOf_iff_prefix, beq_iff_eq]
  exact ⟨honly other hother, fun he => he ▸ hpre⟩

theorem Determines.completion (h : Determines text name) (hpw : text ≠ pw) :
    text ++ completion text = name := by
  have hcand := h.candidates
  by_cases hname : name = pw ++ [char 'd']
  · subst hname
    have hpre := (List.mem_inits _ _).2 h.2.1
    have honly := h.2.2
    simp only [pw, List.cons_append, List.nil_append, List.inits, List.map_cons, List.map_nil,
      List.mem_cons, List.not_mem_nil, or_false] at hpre
    rcases hpre with rfl | rfl | rfl | rfl
    · cases honly ("ls".toList.map char) (by decide) List.nil_prefix
    · cases honly ("ps".toList.map char) (by decide) (by decide)
    · exact absurd rfl hpw
    · decide
  · rw [count_commands name h.1 hname] at hcand
    rw [completion_single hcand]
    exact (List.prefix_append_drop h.2.1).symm

end Xv6.Console
