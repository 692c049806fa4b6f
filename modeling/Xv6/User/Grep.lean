import Xv6.Lib.Lines
import Xv6.User.Regex

namespace Xv6.User
open Lib
set_option autoImplicit true

abbrev nl : UInt8 := 10

/-- The inner loop of `grep` with the bytes from `p` to `strchr`: what is written, and the rest. -/
def grepLines (pattern p : List UInt8) : List UInt8 → List UInt8 × List UInt8
  | [] => ([], p)
  | c :: s =>
    if c = 0 then ([], p ++ c :: s)
    else if c = nl then
      ((if rematch pattern p then p ++ [nl] else []) ++ (grepLines pattern [] s).1,
        (grepLines pattern [] s).2)
    else grepLines pattern (p ++ [c]) s

abbrev grepBuf : Nat := 1024

/-- `grep`, where `kept` is `buf[0..m)` and `read` returns the chunks in turn, and then 0, as for no
bytes. -/
def grep (pattern kept : List UInt8) : List (List UInt8) → List UInt8
  | [] => []
  | chunk :: chunks =>
    if grepBuf - kept.length - 1 = 0 then []
    else
      let (out, rest) := grepLines pattern [] (kept ++ chunk)
      let kept := if rest.length = (kept ++ chunk).length then [] else rest
      out ++ grep pattern kept chunks

end Xv6.User
