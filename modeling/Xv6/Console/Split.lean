import Xv6.Console.Input

namespace Xv6.Console
set_option autoImplicit true

def complete : List UInt8 → Bool
  | [] => true
  | c :: cs =>
    if c = esc then
      match cs with
      | [] => false
      | c1 :: cs =>
        if c1 = char '[' then
          match cs with
          | [] => false
          | _ :: cs => complete cs
        else complete cs
    else complete cs

end Xv6.Console
