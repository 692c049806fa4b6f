import Mathlib.Data.List.GetD
import Xv6.Lib.Lines
import Xv6.Shell.Parser

namespace Xv6.Shell
open Lib
set_option autoImplicit true

abbrev nl : UInt8 := 10
abbrev cr : UInt8 := 13
abbrev slash : UInt8 := 47
abbrev maxCmdLen : Nat := 100

def ascii (s : String) : List UInt8 :=
  s.toList.map fun c => UInt8.ofNat c.toNat

def strAt (buf : List UInt8) (i : Nat) : List UInt8 :=
  (buf.drop i).takeWhile (· ≠ 0)

/-- The loop of `gets`: the buffer, and the bytes not read. -/
def getsLoop (max : Nat) (buf : List UInt8) (i : Nat) : List UInt8 → List UInt8 × List UInt8
  | [] => (buf.set i 0, [])
  | c :: input =>
    if i + 1 < max then
      if c = nl ∨ c = cr then ((buf.set i c).set (i + 1) 0, input)
      else getsLoop max (buf.set i c) (i + 1) input
    else (buf.set i 0, c :: input)

def gets (buf : List UInt8) (max : Nat) (input : List UInt8) : List UInt8 × List UInt8 :=
  getsLoop max buf 0 input

/-- `getcmd`, which returns -1 when the string is empty. -/
def getcmd (nbuf : Nat) (input : List UInt8) : Option (List UInt8 × List UInt8) :=
  let (buf, input) := gets (List.replicate nbuf 0) nbuf input
  if buf.headD 0 = 0 then none else some (buf, input)

/-- `cmdname`: the text after the first slash, if there is one. -/
def cmdname (cmd : List UInt8) : List UInt8 :=
  if slash ∈ cmd then (cmd.dropWhile (· ≠ slash)).tail else cmd

/-- The loop of `append_history_file` for the last line, with `last` and `cur`. -/
def readLast (last cur : List UInt8) : List UInt8 → List UInt8
  | [] => if 0 < cur.length then cur else last
  | ch :: file =>
    if ch = nl then readLast cur [] file
    else readLast last (if cur.length < maxCmdLen then cur ++ [ch] else cur) file

/-- `append_history_file` takes the newline off the string. -/
def dropNewline (buf : List UInt8) : List UInt8 :=
  let len := (strAt buf 0).length
  if 0 < len ∧ buf.getD (len - 1) 0 = nl then buf.set (len - 1) 0 else buf

/-- What `append_history_file` then does with the file, if it exists. -/
def logLine (cmd : List UInt8) (file : Option (List UInt8)) : Option (List UInt8) :=
  if cmdname cmd = ascii "history" then file
  else if file.any fun bytes => 0 < cmd.length ∧ readLast [] [] bytes = cmd then file
  else some (file.getD [] ++ cmd ++ [nl])

def appendHistoryFile (buf : List UInt8) (file : Option (List UInt8)) :
    List UInt8 × Option (List UInt8) :=
  let buf := dropNewline buf
  (buf, logLine (strAt buf 0) file)

/-- What `main` asks for: another directory, or a child for the command. -/
inductive Call where
  | chdir (path : List UInt8)
  | run (cmd : List UInt8)
  deriving DecidableEq

/-- The shell between rounds: the bytes to be typed, and the history file. -/
structure Session where
  input : List UInt8
  history : Option (List UInt8)
  deriving DecidableEq

/-- What `main` does with a command after `append_history_file`. -/
def dispatch (buf : List UInt8) : Call :=
  if buf.getD 0 0 = 99 ∧ buf.getD 1 0 = 100 ∧ buf.getD 2 0 = 32 then
    let buf := buf.set ((strAt buf 0).length - 1) 0
    .chdir (strAt buf 3)
  else .run (strAt buf 0)

def round (s : Session) : Option (Session × Call) := do
  let (buf, input) ← getcmd 100 s.input
  let (buf, history) := appendHistoryFile buf s.history
  some (⟨input, history⟩, dispatch buf)

/-- The loop of `main`, for so many rounds at most. -/
def mainLoop : Nat → Session → Session × List Call
  | 0, s => (s, [])
  | n + 1, s =>
    match round s with
    | none => (s, [])
    | some (s', c) => ((mainLoop n s').1, c :: (mainLoop n s').2)

/-- `main`; every round but the last one reads a byte. -/
def main (s : Session) : Session × List Call :=
  mainLoop (s.input.length + 1) s

/-- A buffer of `n` bytes that holds a string and NULs after it. -/
def fill (n : Nat) (s : List UInt8) : List UInt8 :=
  s ++ List.replicate (n - s.length) 0

section Fill
variable {n : Nat} {s t : List UInt8}

theorem fill_put (h : s.length < n) (c : UInt8) : (fill n s).set s.length c = fill n (s ++ [c]) := by
  obtain ⟨k, hk⟩ : ∃ k, n - s.length = k + 1 := ⟨n - s.length - 1, by omega⟩
  have hk' : n - (s ++ [c]).length = k := by
    rw [List.length_append, List.length_singleton]
    omega
  rw [fill, fill, hk, hk', List.set_append_right _ _ (Nat.le_refl _), Nat.sub_self,
    List.replicate_succ, List.set_cons_zero, List.append_assoc, List.singleton_append]

theorem fill_end (s : List UInt8) : (fill n s).set s.length 0 = fill n s := by
  rw [fill, List.set_append_right _ _ (Nat.le_refl _), Nat.sub_self]
  cases n - s.length with
  | zero => rfl
  | succ k => rfl

theorem fill_drop (h : s.length < n) (c : UInt8) : (fill n (s ++ [c])).set s.length 0 = fill n s := by
  rw [← fill_put h c, List.set_set, fill_end]

theorem strAt_fill (h0 : 0 ∉ s) (i : Nat) : strAt (fill n s) i = s.drop i := by
  have hchars : ∀ c ∈ s.drop i, decide (c ≠ 0) = true := by
    intro c hc
    exact decide_eq_true fun he => h0 (he ▸ List.mem_of_mem_drop hc)
  rw [strAt, fill, List.drop_append, List.takeWhile_append_of_pos hchars, List.drop_replicate,
    List.takeWhile_replicate]
  exact List.append_nil _

theorem fill_getD (h : i < s.length) : (fill n s).getD i 0 = s.getD i 0 := by
  rw [fill, List.getD_append _ _ _ _ h]

theorem dropNewline_line (h : s.length < n) (h0 : 0 ∉ s) :
    dropNewline (fill n (s ++ [nl])) = fill n s := by
  have h0' : 0 ∉ s ++ [nl] := by
    rw [List.mem_append, not_or]
    exact ⟨h0, by decide⟩
  have hlen : (strAt (fill n (s ++ [nl])) 0).length = s.length + 1 := by
    rw [strAt_fill h0', List.drop_zero, List.length_append, List.length_singleton]
  have hlast : (fill n (s ++ [nl])).getD s.length 0 = nl := by
    rw [fill_getD (by simp)]
    simp
  rw [dropNewline, hlen, Nat.add_sub_cancel, if_pos ⟨Nat.succ_pos _, hlast⟩, fill_drop h]

theorem dropNewline_free (h0 : 0 ∉ s) (hnl : nl ∉ s) : dropNewline (fill n s) = fill n s := by
  have hlen : (strAt (fill n s) 0).length = s.length := by
    rw [strAt_fill h0, List.drop_zero]
  rw [dropNewline, hlen]
  apply if_neg
  rintro ⟨hpos, hlast⟩
  rw [fill_getD (by omega), List.getD_eq_getElem _ _ (by omega)] at hlast
  exact hnl (hlast ▸ List.getElem_mem _)

end Fill

def Typed (l : List UInt8) : Prop :=
  ∀ c ∈ l, c ≠ nl ∧ c ≠ cr ∧ c ≠ 0

instance (l : List UInt8) : Decidable (Typed l) :=
  decidable_of_iff (l.all fun c => c ≠ nl ∧ c ≠ cr ∧ c ≠ 0) (by simp [Typed])

section Gets
variable {n : Nat} {l : List UInt8}

theorem Typed.nul (h : Typed l) : 0 ∉ l :=
  fun hm => (h 0 hm).2.2 rfl

theorem Typed.newline (h : Typed l) : nl ∉ l :=
  fun hm => (h nl hm).1 rfl

theorem getsLoop_char (hc : c ≠ nl ∧ c ≠ cr ∧ c ≠ 0) (hlen : pre.length + 1 < n) :
    getsLoop n (fill n pre) pre.length (c :: input) =
      getsLoop n (fill n (pre ++ [c])) (pre ++ [c]).length input := by
  rw [getsLoop, if_pos hlen, if_neg (not_or.2 ⟨hc.1, hc.2.1⟩), fill_put (by omega),
    List.length_append, List.length_singleton]

theorem getsLoop_line (h : Typed l) (pre : List UInt8) (hlen : pre.length + l.length + 1 < n) :
    getsLoop n (fill n pre) pre.length (l ++ nl :: rest) = (fill n (pre ++ l ++ [nl]), rest) := by
  induction l generalizing pre with
  | nil =>
    have hend : ((fill n pre).set pre.length nl).set (pre.length + 1) 0 = fill n (pre ++ [nl]) := by
      have hset := fill_end (n := n) (pre ++ [nl])
      rw [List.length_append, List.length_singleton] at hset
      rw [fill_put (by omega), hset]
    have hroom : pre.length + 1 < n := hlen
    rw [List.nil_append, List.append_nil, getsLoop, if_pos hroom, if_pos (.inl rfl), hend]
  | cons c l ih =>
    obtain ⟨hc, hl⟩ := List.forall_mem_cons.1 h
    rw [List.length_cons] at hlen
    rw [List.cons_append, getsLoop_char hc (by omega), ih hl _ (by simp; omega)]
    simp

theorem getsLoop_full (h : Typed l) (pre : List UInt8) (hlen : pre.length + l.length + 1 = n) :
    getsLoop n (fill n pre) pre.length (l ++ rest) = (fill n (pre ++ l), rest) := by
  induction l generalizing pre with
  | nil =>
    rw [List.nil_append, List.append_nil]
    cases rest with
    | nil => rw [getsLoop, fill_end]
    | cons c rest => rw [getsLoop, if_neg (by simp at hlen; omega), fill_end]
  | cons c l ih =>
    obtain ⟨hc, hl⟩ := List.forall_mem_cons.1 h
    rw [List.length_cons] at hlen
    rw [List.cons_append, getsLoop_char hc (by omega), ih hl _ (by simp; omega)]
    simp

theorem getcmd_line (h : Typed l) (hlen : l.length ≤ 98) :
    getcmd 100 (l ++ nl :: rest) = some (fill 100 (l ++ [nl]), rest) := by
  have hgets : gets (List.replicate 100 0) 100 (l ++ nl :: rest) = (fill 100 (l ++ [nl]), rest) :=
    getsLoop_line h [] (by simp; omega)
  rw [getcmd, hgets]
  apply if_neg
  cases l with
  | nil => decide
  | cons c l => exact (h c List.mem_cons_self).2.2

theorem getcmd_full (h : Typed l) (hlen : l.length = 99) :
    getcmd 100 (l ++ rest) = some (fill 100 l, rest) := by
  have hgets : gets (List.replicate 100 0) 100 (l ++ rest) = (fill 100 l, rest) :=
    getsLoop_full h [] (by simp; omega)
  rw [getcmd, hgets]
  apply if_neg
  cases l with
  | nil => cases hlen
  | cons c l => exact (h c List.mem_cons_self).2.2

end Gets

theorem round_of (hget : getcmd 100 input = some (buf, rest)) (hdrop : dropNewline buf = fill 100 l)
    (h0 : 0 ∉ l) :
    round ⟨input, file⟩ = some (⟨rest, logLine l file⟩, dispatch (fill 100 l)) := by
  have hfile : appendHistoryFile buf file = (fill 100 l, logLine l file) := by
    rw [appendHistoryFile, hdrop, strAt_fill h0, List.drop_zero]
  simp only [round, hget, Option.bind_eq_bind, Option.bind_some, hfile]

theorem round_line (h : Typed l) (hlen : l.length ≤ 98) :
    round ⟨l ++ nl :: rest, file⟩ = some (⟨rest, logLine l file⟩, dispatch (fill 100 l)) :=
  round_of (getcmd_line h hlen) (dropNewline_line (by omega) h.nul) h.nul

theorem round_full (h : Typed l) (hlen : l.length = 99) :
    round ⟨l ++ rest, file⟩ = some (⟨rest, logLine l file⟩, dispatch (fill 100 l)) :=
  round_of (getcmd_full h hlen) (dropNewline_free h.nul h.newline) h.nul

theorem dispatch_cd (h : Typed p) (hlen : p.length ≤ 96) :
    dispatch (fill 100 (ascii "cd " ++ p)) = .chdir p.dropLast := by
  have h0 : 0 ∉ ascii "cd " ++ p := by
    rw [List.mem_append, not_or]
    exact ⟨by decide, h.nul⟩
  have hstr : (strAt (fill 100 (ascii "cd " ++ p)) 0).length - 1 = p.length + 2 := by
    rw [strAt_fill h0, List.drop_zero, List.length_append, Nat.add_comm]
    rfl
  have hcd : dispatch (fill 100 (ascii "cd " ++ p)) =
      .chdir (strAt ((fill 100 (ascii "cd " ++ p)).set (p.length + 2) 0) 3) := by
    rw [dispatch, hstr]
    exact if_pos ⟨rfl, rfl, rfl⟩
  rw [hcd]
  rcases List.eq_nil_or_concat' p with rfl | ⟨q, c, rfl⟩
  · rfl
  · have hq : 0 ∉ ascii "cd " ++ q := by
      intro hm
      apply h0
      rw [← List.append_assoc]
      exact List.mem_append_left _ hm
    have hpos : (q ++ [c]).length + 2 = (ascii "cd " ++ q).length := by
      have hcd : (ascii "cd ").length = 3 := rfl
      simp only [List.length_append, List.length_singleton, hcd]
      omega
    have hroom : (ascii "cd " ++ q).length < 100 := by
      rw [← hpos]
      omega
    rw [← List.append_assoc, hpos, fill_drop hroom, strAt_fill hq, List.dropLast_concat]
    rfl

theorem typed_cd : Typed (ascii "cd ") := by
  decide

/-- `cd` gets the directory without its last character: right only for the empty one. -/
theorem cd_empty_only (rest : List UInt8) (file : Option (List UInt8)) (h : Typed p)
    (hlen : p.length ≤ 96) :
    ∃ s' path, round ⟨ascii "cd " ++ p ++ nl :: rest, file⟩ = some (s', .chdir path) ∧
      (path = p ↔ p = []) := by
  have hline : Typed (ascii "cd " ++ p) := by
    intro c hc
    rcases List.mem_append.1 hc with hc | hc
    · exact typed_cd c hc
    · exact h c hc
  have hpath : p.dropLast = p ↔ p = [] := by
    constructor
    · intro he
      by_contra hne
      have hlt := congrArg List.length he
      have hpos := List.length_pos_iff.2 hne
      rw [List.length_dropLast] at hlt
      omega
    · rintro rfl
      rfl
  have hcd := dispatch_cd h hlen
  have hsize : (ascii "cd " ++ p).length = p.length + 3 := by
    rw [List.length_append, Nat.add_comm]
    rfl
  by_cases hfull : p.length = 96
  · exact ⟨_, _, (round_full hline (by omega)).trans (by rw [hcd]), hpath⟩
  · exact ⟨_, _, (round_line hline (by omega)).trans (by rw [hcd]), hpath⟩

theorem cd_empty_only_nil :
    ∃ s' path, round ⟨ascii "cd " ++ [] ++ nl :: [], none⟩ = some (s', .chdir path) ∧ path = [] := by
  obtain ⟨s', path, hround, hpath⟩ := cd_empty_only (p := []) [] none nofun (by decide)
  exact ⟨s', path, hround, hpath.2 rfl⟩

/-- `cd /` asks for the empty path. -/
theorem cd_loses_character : ∃ p s' path, Typed p ∧ p.length ≤ 95 ∧
    round ⟨ascii "cd " ++ p ++ [nl], none⟩ = some (s', .chdir path) ∧ path ≠ p :=
  ⟨[slash], ⟨[], some (ascii "cd /\n")⟩, [], by decide, by decide, by decide +kernel,
    by decide⟩

/-- A command is recorded unless it is `history`, or not empty and the last line. -/
def record (log : List (List UInt8)) (cmd : List UInt8) : List (List UInt8) :=
  if cmdname cmd = ascii "history" then log
  else if cmd ≠ [] ∧ log.getLast? = some cmd then log
  else log ++ [cmd]

theorem readLast_free (hl : nl ∉ l) (hlen : cur.length + l.length ≤ maxCmdLen) :
    readLast last cur (l ++ nl :: file) = readLast (cur ++ l) [] file := by
  induction l generalizing cur with
  | nil => rw [List.nil_append, readLast, if_pos rfl, List.append_nil]
  | cons c l ih =>
    obtain ⟨hc, hl⟩ := not_or.1 (mt List.mem_cons.2 hl)
    rw [List.length_cons] at hlen
    have hroom : cur.length < maxCmdLen := by omega
    rw [List.cons_append, readLast, if_neg (Ne.symm hc), if_pos hroom, ih hl (by simp; omega),
      List.append_assoc, List.singleton_append]

theorem readLast_unlines (h : ∀ l ∈ ls, nl ∉ l ∧ l.length ≤ maxCmdLen) :
    readLast last [] (unlines nl ls) = ls.getLastD last := by
  induction ls generalizing last with
  | nil => rfl
  | cons l ls ih =>
    obtain ⟨⟨hl, hlen⟩, hls⟩ := List.forall_mem_cons.1 h
    rw [unlines_cons, readLast_free hl (by simpa using hlen), List.nil_append, ih hls,
      List.getLastD_cons]

/-- The file holds the lines of the log. -/
structure Logged (file : Option (List UInt8)) (log : List (List UInt8)) : Prop where
  bytes : file.getD [] = unlines nl log
  lines : ∀ l ∈ log, nl ∉ l ∧ l.length ≤ maxCmdLen

theorem Logged.repeats (h : Logged file log) (cmd : List UInt8) :
    file.any (fun bytes => 0 < cmd.length ∧ readLast [] [] bytes = cmd) = true ↔
      cmd ≠ [] ∧ log.getLast? = some cmd := by
  cases file with
  | none =>
    obtain rfl : log = [] := unlines_eq_nil.1 h.bytes.symm
    simp
  | some bytes =>
    obtain rfl : bytes = unlines nl log := h.bytes
    rw [Option.any_some, decide_eq_true_iff, List.length_pos_iff, readLast_unlines h.lines]
    apply and_congr_right
    intro hne
    cases log with
    | nil => simp [Ne.symm hne]
    | cons l ls => simp [List.getLast?_cons]

theorem Logged.record (h : Logged file log) (hc : Typed cmd) (hlen : cmd.length ≤ 98) :
    Logged (logLine cmd file) (record log cmd) := by
  have hlines : ∀ l ∈ log ++ [cmd], nl ∉ l ∧ l.length ≤ maxCmdLen := by
    intro l hl
    rcases List.mem_append.1 hl with hl | hl
    · exact h.lines l hl
    · rw [List.mem_singleton.1 hl]
      exact ⟨hc.newline, Nat.le_trans hlen (by decide)⟩
  rw [logLine, Shell.record]
  by_cases hname : cmdname cmd = ascii "history"
  · rw [if_pos hname, if_pos hname]
    exact h
  · rw [if_neg hname, if_neg hname, if_congr (h.repeats cmd) rfl rfl]
    split
    · exact h
    · refine ⟨?_, hlines⟩
      rw [Option.getD_some, h.bytes, unlines_append, unlines_cons, unlines_nil, List.append_assoc]

theorem mainLoop_logs (h : ∀ cmd ∈ cmds, Typed cmd ∧ cmd.length ≤ 98) (hlog : Logged file log)
    (hn : cmds.length ≤ n) :
    Logged (mainLoop n ⟨unlines nl cmds, file⟩).1.history (cmds.foldl record log) := by
  induction cmds generalizing n file log with
  | nil =>
    cases n with
    | zero => exact hlog
    | succ n => exact hlog
  | cons cmd cmds ih =>
    obtain ⟨⟨hc, hlen⟩, hrest⟩ := List.forall_mem_cons.1 h
    cases n with
    | zero => cases hn
    | succ n =>
      rw [unlines_cons, mainLoop, round_line hc hlen]
      exact ih hrest (hlog.record hc hlen) (Nat.le_of_succ_le_succ hn)

/-- The history file has the commands, except `history` and repetitions. -/
theorem main_logs (cmds : List (List UInt8)) (h : ∀ cmd ∈ cmds, Typed cmd ∧ cmd.length ≤ 98)
    (hfile : file = none ∨ file = some []) :
    (main ⟨unlines nl cmds, file⟩).1.history.getD [] = unlines nl (cmds.foldl record []) := by
  have hlog : Logged file [] := by
    rcases hfile with rfl | rfl
    · exact ⟨rfl, nofun⟩
    · exact ⟨rfl, nofun⟩
  have hn : cmds.length ≤ (unlines nl cmds).length + 1 := by
    have hle := length_le_unlines nl cmds
    omega
  exact (mainLoop_logs h hlog hn).bytes

def sampleCommands : List (List UInt8) :=
  [ascii "ls", ascii "ls", [], [], ascii "/history", ascii "cd /"]

theorem main_logs_sampleCommands :
    (main ⟨unlines nl sampleCommands, none⟩).1.history.getD [] = ascii "ls\n\n\ncd /\n" :=
  (main_logs sampleCommands (by decide) (.inl rfl)).trans (by decide +kernel)

end Xv6.Shell
