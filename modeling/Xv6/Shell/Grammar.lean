import Mathlib.Logic.Function.Iterate
import Xv6.Shell.Parser

namespace Xv6.Shell
set_option autoImplicit true

inductive Token where
  | word (w : List UInt8)
  | lt
  | gt
  | gtgt
  | bar
  | amp
  | semi
  | lpar
  | rpar
  deriving DecidableEq

def Token.symbol (c : UInt8) : Token :=
  if c = 60 then .lt else if c = 124 then .bar else if c = 38 then .amp
  else if c = 59 then .semi else if c = 40 then .lpar else .rpar

/-- A character in front of a text joins the word it starts with. -/
def Token.consWord (c : UInt8) (joined : Bool) : List Token → List Token
  | .word w :: ts => if joined then .word (c :: w) :: ts else .word [c] :: .word w :: ts
  | ts => .word [c] :: ts

/-- The tokens of a text: longest words, and symbols, `>>` being one. -/
def tokens : List UInt8 → List Token
  | [] => []
  | 62 :: 62 :: cs => .gtgt :: tokens cs
  | c :: cs =>
    if isSpace c then tokens cs
    else if c = 62 then .gt :: tokens cs
    else if isSymbol c then .symbol c :: tokens cs
    else Token.consWord c (cs.head?.any isWordChar) (tokens cs)

abbrev Tree := Cmd (List UInt8)

/-- redir ::= ('<' | '>' | '>>') word -/
inductive Redir : List Token → Redirection (List UInt8) → Prop
  | input : Redir [.lt, .word w] ⟨w, oRdonly, 0⟩
  | output : Redir [.gt, .word w] ⟨w, oWronly ||| oCreate, 1⟩
  | append : Redir [.gtgt, .word w] ⟨w, oWronly ||| oCreate, 1⟩

inductive Redirs : List Token → List (Redirection (List UInt8)) → Prop
  | nil : Redirs [] []
  | cons (hr : Redir ts r) (hrs : Redirs us rs) : Redirs (ts ++ us) (r :: rs)

inductive Words : List Token → List (List UInt8) → List (Redirection (List UInt8)) → Prop
  | nil : Words [] [] []
  | cons (hr : Redirs ts rs) (hw : Words us ws rs') :
      Words (.word w :: ts ++ us) (w :: ws) (rs ++ rs')

mutual
/-- line ::= pipe '&'* [';' line] -/
inductive Line : List Token → Tree → Prop
  | last (hp : Pipe ts c) (n : Nat) : Line (ts ++ List.replicate n .amp) (Cmd.back^[n] c)
  | seq (hp : Pipe ts c) (n : Nat) (hl : Line us d) :
      Line (ts ++ List.replicate n .amp ++ .semi :: us) (.list (Cmd.back^[n] c) d)

/-- pipe ::= exec ['|' pipe] -/
inductive Pipe : List Token → Tree → Prop
  | last (he : Exec ts c) : Pipe ts c
  | bar (he : Exec ts c) (hp : Pipe us d) : Pipe (ts ++ .bar :: us) (.pipe c d)

/-- exec ::= '(' line ')' redir* | redir* (word redir*)*, fewer than `MAXARGS` words -/
inductive Exec : List Token → Tree → Prop
  | block (hl : Line ts c) (hr : Redirs us rs) :
      Exec (.lpar :: ts ++ .rpar :: us) (c.wrap rs)
  | simple (hr : Redirs ts rs) (hw : Words us ws rs') (hn : ws.length ≤ maxArgs - 1) :
      Exec (ts ++ us) ((Cmd.exec ws).wrap (rs ++ rs'))
end

end Xv6.Shell
