import Xv6.Param
import Mathlib.Data.UInt
import Mathlib.Logic.Function.Basic

namespace Xv6.Mp
open Function
set_option autoImplicit true

abbrev nCpu : Nat := 8

variable {mem : Nat → UInt8} {e conf fuel : Nat}

def sum (mem : Nat → UInt8) (addr len : Nat) : UInt8 :=
  ((List.range len).map fun i => mem (addr + i)).sum

def confLength (mem : Nat → UInt8) (conf : Nat) : Nat :=
  (mem (conf + 4)).toNat + 256 * (mem (conf + 5)).toNat

/-- `mpconfig`, where `physaddr` is that of what `mpsearch` finds, if anything. -/
def mpconfig (mem : Nat → UInt8) (physaddr : Option Nat) : Option Nat :=
  match physaddr with
  | none => none
  | some conf =>
    if conf = 0 then none
    else if (List.range 4).map (fun i => mem (conf + i)) ≠ [80, 67, 77, 80] then none
    else if mem (conf + 6) ≠ 1 ∧ mem (conf + 6) ≠ 4 then none
    else if sum mem conf (confLength mem conf) ≠ 0 then none
    else some conf

/-- The variables of `mpinit` and the globals it sets; `apicid` is that of `cpus`. -/
structure St where
  p : Nat
  ismp : Bool
  ncpu : Nat
  apicid : Nat → UInt8
  ioapicid : UInt8

def start (conf : Nat) : St :=
  ⟨conf + 44, true, 0, fun _ => 0, 0⟩

def addCpu (s : St) (apicid : UInt8) : St :=
  if s.ncpu < nCpu then
    { s with apicid := update s.apicid s.ncpu apicid, ncpu := s.ncpu + 1 }
  else s

/-- The `switch` for the entry at `p`; the default case's `break` leaves it only. -/
def entry (mem : Nat → UInt8) (s : St) : St :=
  match (mem s.p).toNat with
  | 0 => { addCpu s (mem (s.p + 1)) with p := s.p + 20 }
  | 2 => { s with ioapicid := mem (s.p + 1), p := s.p + 8 }
  | 1 | 3 | 4 => { s with p := s.p + 8 }
  | _ => { s with ismp := false }

/-- The loop of `mpinit`, unless it still runs after `fuel` rounds. -/
def loop (mem : Nat → UInt8) (e : Nat) : Nat → St → Option St
  | fuel, s =>
    if s.p < e then
      match fuel with
      | 0 => none
      | fuel + 1 => loop mem e fuel (entry mem s)
    else some s

def mpinit (mem : Nat → UInt8) (physaddr : Option Nat) (fuel : Nat) : Option (Except Fault St) :=
  match mpconfig mem physaddr with
  | none => some (.error (.panic "Expect to run on an SMP"))
  | some conf =>
    match loop mem (conf + confLength mem conf) fuel (start conf) with
    | none => none
    | some s =>
      if !s.ismp then some (.error (.panic "Didn't find a suitable machine")) else some (.ok s)

def entrySize (type : UInt8) : Option Nat :=
  match type.toNat with
  | 0 => some 20
  | 1 | 2 | 3 | 4 => some 8
  | _ => none

inductive Known (mem : Nat → UInt8) (e : Nat) : Nat → Prop where
  | done : e ≤ p → Known mem e p
  | next : p < e → entrySize (mem p) = some k → Known mem e (p + k) → Known mem e p

def oneEntry (type : UInt8) : Nat → UInt8 := fun a =>
  ([80, 67, 77, 80, 52, 0, 1, 155 - type] ++ List.replicate 36 0 ++ [type]).getD (a - 1024) 0

end Xv6.Mp
