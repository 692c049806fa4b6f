import Xv6.Lib.Ring
import Xv6.Param

namespace Xv6.Console
open Lib
set_option autoImplicit true

abbrev inputBuf : Nat := 128
abbrev histMax : Nat := 16

def nl : UInt8 := 10
def cr : UInt8 := 13
def tab : UInt8 := 9
def esc : UInt8 := 0x1b

def char (x : Char) : UInt8 :=
  UInt8.ofNat x.toNat

def ctrl (x : Char) : UInt8 :=
  char x - char '@'

/-- `input` and the history ring; `behind` is the memory after `input`. -/
structure Input where
  buf : Fin inputBuf → UInt8
  r : UInt32
  w : UInt32
  e : UInt32
  history : Fin histMax → Fin inputBuf → UInt8
  histCount : Fin (histMax + 1)
  histHead : Fin histMax
  histPos : Int
  behind : Nat → UInt8

def boot (behind : Nat → UInt8) : Input where
  buf _ := 0
  r := 0
  w := 0
  e := 0
  history _ _ := 0
  histCount := 0
  histHead := 0
  histPos := -1
  behind := behind

def Input.room (s : Input) : Bool :=
  s.e - s.r < 128

def Input.put (s : Input) (c : UInt8) : Input :=
  { s with
    buf := Function.update s.buf (slot inputBuf s.e) c
    e := s.e + 1 }

/-- The loop of `history_add` that looks for the start of the line. -/
def lineStart (buf : Fin inputBuf → UInt8) (r : Int) : Nat → Nat
  | 0 => 0
  | start + 1 =>
    if r < start + 1 ∧ buf (Fin.ofNat inputBuf start) ≠ nl then lineStart buf r start
    else start + 1

/-- The line from `start` on as it is stored in the history. -/
def historyLine (s : Input) (start : Int) (copylen : Nat) (i : Fin inputBuf) : UInt8 :=
  if i < copylen then s.buf (Fin.ofNat inputBuf (start + i).toNat)
  else if i = copylen then 0
  else s.history s.histHead i

def historyStart (s : Input) : Int :=
  let start := (s.e - 1).toInt32.toInt
  if 0 < start then lineStart s.buf s.r.toInt32.toInt start.toNat else start

def historyLen (s : Input) : Int :=
  (s.e - UInt32.ofInt (historyStart s)).toInt32.toInt

def historyAdd (s : Input) : Input :=
  if historyLen s ≤ 1 then s
  else
    { s with
      history :=
        Function.update s.history s.histHead
          (historyLine s (historyStart s) (min (historyLen s - 1).toNat (inputBuf - 1)))
      histHead := s.histHead + 1
      histCount := if s.histCount < Fin.last histMax then s.histCount + 1 else s.histCount
      histPos := -1 }

theorem line_le : inputBuf - 1 ≤ inputBuf := by
  decide

def historyGet (s : Input) (i : Nat) : List UInt8 :=
  let base := (s.histHead + histMax - s.histCount) % histMax
  let real := s.history (Fin.ofNat histMax (base + i))
  (List.ofFn fun j : Fin (inputBuf - 1) => real (j.castLE line_le)).takeWhile (· ≠ 0)

/-- The loop of `history_restore` that writes the line. -/
def Input.write (s : Input) : List UInt8 → Input
  | [] => s
  | c :: cs => if s.room then (s.put c).write cs else s

/-- Outside the history `tmp` is left as it was on the stack. -/
def historyRestore (s : Input) (i : Int) : Except Fault Input :=
  if i < 0 then .ok { s with e := s.w }
  else if i < s.histCount.val then .ok (Input.write { s with e := s.w } (historyGet s i.toNat))
  else .error .overflow

def commands : List (List UInt8) :=
  ["ls", "cat", "echo", "forktest", "grep", "kill", "mkdir", "rm", "pwd", "cd", "stressfs",
    "wolfietest", "clear", "history", "pwd", "ps", "setprioritytest", "getstatstest",
    "cpuhog"].map fun name => name.toList.map char

/-- Whether `strncmp` finds `p` and the memory at `q` equal. -/
def strncmp (p : List UInt8) (q : Nat → UInt8) : Nat → Bool
  | 0 => true
  | n + 1 =>
    match p with
    | [] => q 0 = 0
    | c :: p => c = q 0 && strncmp p (fun i => q (i + 1)) n

def byte (x : UInt32) (i : Nat) : UInt8 :=
  (x >>> UInt32.ofNat (8 * i)).toUInt8

/-- Byte `i` from `&input.buf[input.r % INPUT_BUF]` on, also past `buf`. -/
def Input.line (s : Input) (i : Nat) : UInt8 :=
  let j := s.r.toNat % inputBuf + i
  if j < inputBuf then s.buf (Fin.ofNat inputBuf j)
  else if j < inputBuf + 4 then byte s.r (j - inputBuf)
  else if j < inputBuf + 8 then byte s.w (j - inputBuf - 4)
  else if j < inputBuf + 12 then byte s.e (j - inputBuf - 8)
  else s.behind (j - inputBuf - 12)

/-- A match shorter than the line is read past its end. -/
def autocomplete (s : Input) : Except Fault Input :=
  let len := (s.e - s.r).toNat
  match commands.filter fun name => strncmp name s.line len with
  | [name] => if len ≤ name.length then .ok ((name.drop len).foldl Input.put s) else .error .overflow
  | _ => .ok s

def arrowUp (s : Input) : Except Fault Input :=
  if 0 < s.histCount then
    let pos : Int :=
      if s.histPos = -1 then s.histCount.val - 1
      else if 0 < s.histPos then s.histPos - 1
      else s.histPos
    historyRestore { s with histPos := pos } pos
  else .ok s

def arrowDown (s : Input) : Except Fault Input :=
  if s.histPos = -1 then .ok s
  else if s.histPos < s.histCount.val - 1 then
    historyRestore { s with histPos := s.histPos + 1 } (s.histPos + 1)
  else historyRestore { s with histPos := -1 } (-1)

/-- The edit index after `^U` on a line of `n` bytes. -/
def killTo (buf : Fin inputBuf → UInt8) : Nat → UInt32 → UInt32
  | 0, e => e
  | n + 1, e => if buf (slot inputBuf (e - 1)) ≠ nl then killTo buf n (e - 1) else e

def killLine (s : Input) : Input :=
  { s with e := killTo s.buf (ahead s.w s.e) s.e }

def backspace (s : Input) : Input :=
  if s.e = s.w then s else { s with e := s.e - 1 }

def submit (s : Input) (c : UInt8) : Input :=
  let s := if c = nl then historyAdd s else s
  { s with w := s.e }

def insert (s : Input) (c : UInt8) : Input :=
  let s := Input.put { s with histPos := -1 } c
  if c = nl ∨ c = ctrl 'D' ∨ s.e = s.r + 128 then submit s c else s

/-- The default case of `consoleintr`. -/
def type (s : Input) (c : UInt8) : Input :=
  if c ≠ 0 ∧ s.room = true then insert s (if c = cr then nl else c) else s

def key (s : Input) (c : UInt8) : Except Fault Input :=
  if c = ctrl 'P' then .ok s
  else if c = ctrl 'U' then .ok (killLine s)
  else if c = ctrl 'H' ∨ c = 0x7f then .ok (backspace s)
  else if c = ctrl 'L' then .ok s
  else if c = tab then autocomplete s
  else .ok (type s c)

/-- `consoleintr` with a `getc` that delivers the bytes and then -1. -/
def consoleintr (s : Input) : List UInt8 → Except Fault Input
  | [] => .ok s
  | c :: cs =>
    if c = esc then
      match cs with
      | [] => .ok s
      | c1 :: cs =>
        if c1 = char '[' then
          match cs with
          | [] => .ok s
          | c2 :: cs =>
            if c2 = char 'A' then do
              let s ← arrowUp s
              consoleintr s cs
            else if c2 = char 'B' then do
              let s ← arrowDown s
              consoleintr s cs
            else consoleintr s cs
        else consoleintr s cs
    else do
      let s ← key s c
      consoleintr s cs

/-- What one round of the loop of `consoleintr` does. -/
inductive Action where
  | key (c : UInt8)
  | up
  | down
  deriving DecidableEq

def act (s : Input) : Action → Except Fault Input
  | .key c => key s c
  | .up => arrowUp s
  | .down => arrowDown s

def actions : List UInt8 → List Action
  | [] => []
  | c :: cs =>
    if c = esc then
      match cs with
      | [] => []
      | c1 :: cs =>
        if c1 = char '[' then
          match cs with
          | [] => []
          | c2 :: cs =>
            if c2 = char 'A' then .up :: actions cs
            else if c2 = char 'B' then .down :: actions cs
            else actions cs
        else actions cs
    else .key c :: actions cs

theorem consoleintr_eq (s : Input) (xs : List UInt8) :
    consoleintr s xs = (actions xs).foldlM act s := by
  fun_induction actions xs generalizing s with
  | case1 => rfl
  | case2 => rfl
  | case3 => rfl
  | case4 cs ih =>
    simp only [consoleintr, if_true, List.foldlM_cons, act]
    exact bind_congr ih
  | case5 cs hA ih =>
    simp only [consoleintr, if_true, if_neg hA, List.foldlM_cons, act]
    exact bind_congr ih
  | case6 c2 cs hA hB ih =>
    simp only [consoleintr, if_true, if_neg hA, if_neg hB]
    exact ih s
  | case7 c1 cs h ih =>
    rw [consoleintr.eq_def]
    simp only [if_true, if_neg h]
    exact ih s
  | case8 c cs h ih =>
    rw [consoleintr.eq_def]
    simp only [if_neg h, List.foldlM_cons, act]
    exact bind_congr ih

end Xv6.Console
