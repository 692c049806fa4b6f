import Mathlib.Data.List.TakeWhile
import Mathlib.Data.Nat.Digits.Defs
import Xv6.User.Grep

namespace Xv6.User
open Lib
set_option autoImplicit true

abbrev maxCmdLen : Nat := 100

def digit (d : Nat) : UInt8 :=
  UInt8.ofNat (48 + d)

/-- The digits of `x` from the last one on, as in `printint`. -/
def collectDigits : Nat → Nat → List UInt8
  | 0, _ => []
  | n + 1, x => digit (x % 10) :: if x / 10 = 0 then [] else collectDigits n (x / 10)

def printint (x : Nat) : List UInt8 :=
  (collectDigits (x + 1) x).reverse

/-- `printf(1, "%d %s\n", idx, s)`, for the bytes at `s`. -/
def printEntry (idx : Nat) (s : List UInt8) : List UInt8 :=
  printint idx ++ 32 :: s.takeWhile (· ≠ 0) ++ [nl]

/-- The inner loop of `print_history` from `start` on: output, next index, and rest. -/
def printLines (idx : Nat) (s : List UInt8) : List UInt8 → List UInt8 × Nat × List UInt8
  | [] => ([], idx, s)
  | c :: cs =>
    if c = nl then
      let (out, idx', rest) := printLines (idx + 1) [] cs
      (printEntry idx s ++ out, idx', rest)
    else printLines idx (s ++ [c]) cs

/-- The loop of `print_history` over the bytes not read; a read fills `buf` from its start. -/
def printLoop : Nat → Nat → List UInt8 → List UInt8 → List UInt8
  | 0, _, _, _ => []
  | fuel + 1, idx, buf, file =>
    let n := min maxCmdLen file.length
    if n = 0 then []
    else
      let buf := file.take n ++ buf.drop n
      let (out, idx, rest) := printLines idx [] (buf.take n)
      let buf := (buf.take n).map (fun c => if c = nl then 0 else c) ++ buf.drop n
      let buf := rest ++ buf.drop rest.length
      out ++ printLoop fuel idx buf (file.drop n)

/-- `print_history`, for the bytes of the file: what it writes to 1 and 2. -/
def printHistory : Option (List UInt8) → List UInt8 × List UInt8
  | none => ([], "No history yet\n".toList.map fun c => UInt8.ofNat c.toNat)
  | some file => (printLoop (file.length + 1) 1 (List.replicate maxCmdLen 0) file, [])

def decimal (x : Nat) : List UInt8 :=
  (Nat.digits 10 x).reverse.map digit

/-- The lines with their numbers, the first of which is `idx`. -/
def numbered : Nat → List (List UInt8) → List UInt8
  | _, [] => []
  | idx, l :: ls => decimal idx ++ 32 :: l ++ nl :: numbered (idx + 1) ls

/-- After every read but the last the file goes on with a new line. -/
def Aligned (file : List UInt8) : Prop :=
  ∀ k, 0 < k → maxCmdLen * k < file.length → file[maxCmdLen * k - 1]? = some nl

theorem Aligned.drop (h : Aligned file) : Aligned (file.drop maxCmdLen) := by
  intro k hk hlt
  have hget := h (k + 1) (Nat.succ_pos k)
  rw [List.length_drop] at hlt
  rw [List.getElem?_drop]
  simp only [maxCmdLen] at hget hlt ⊢
  rw [show 100 + (100 * k - 1) = 100 * (k + 1) - 1 by omega]
  exact hget (by omega)

theorem Aligned.rest (h : Aligned file) (hlt : maxCmdLen < file.length) :
    (splitLines nl [] (file.take maxCmdLen)).2 = [] := by
  have hget : file[99]? = some nl := h 1 (by decide) hlt
  have hlast : file.take maxCmdLen = file.take 99 ++ [nl] := by
    rw [maxCmdLen, List.take_add_one, hget]
    rfl
  rw [hlast, splitLines_append, splitLines_sep]
  rfl

def shortFile : List (List UInt8) :=
  [List.replicate 95 97, [98, 98]]

end Xv6.User
