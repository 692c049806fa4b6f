import Mathlib.Data.List.Basic
import Xv6.Lib.Triple

namespace Xv6.Shell
open Lib
set_option autoImplicit true

abbrev maxArgs : Nat := 10
abbrev oRdonly : Nat := 0
abbrev oWronly : Nat := 1
abbrev oCreate : Nat := 0x200

/-- Why the parser stops: `panic`, or, in no run, an index past `argv` or a loop cut off. -/
inductive Stop where
  | panic (msg : String)
  | bounds
  | fuel
  deriving DecidableEq

/-- A pointer into the line is the text from there to its end. -/
abbrev Ptr := List UInt8

/-- A word, or a file name: `argv[i]` and `eargv[i]`, or `file` and `efile`. -/
structure Word where
  q : Ptr
  eq : Ptr
  deriving DecidableEq

inductive Cmd (ω : Type) where
  | exec (argv : List ω)
  | redir (cmd : Cmd ω) (file : ω) (mode fd : Nat)
  | pipe (left right : Cmd ω)
  | list (left right : Cmd ω)
  | back (cmd : Cmd ω)
  deriving DecidableEq

def Cmd.map (f : ω → ω') : Cmd ω → Cmd ω'
  | .exec argv => .exec (argv.map f)
  | .redir cmd file mode fd => .redir (cmd.map f) (f file) mode fd
  | .pipe left right => .pipe (left.map f) (right.map f)
  | .list left right => .list (left.map f) (right.map f)
  | .back cmd => .back (cmd.map f)

/-- The arguments of `redircmd` that follow the command. -/
structure Redirection (ω : Type) where
  file : ω
  mode : Nat
  fd : Nat
  deriving DecidableEq

/-- `redircmd` for each redirection in turn. -/
def Cmd.wrap (cmd : Cmd ω) (rs : List (Redirection ω)) : Cmd ω :=
  rs.foldl (fun cmd r => .redir cmd r.file r.mode r.fd) cmd

def isSpace (c : UInt8) : Bool :=
  c ∈ [32, 9, 13, 10, 11]

def isSymbol (c : UInt8) : Bool :=
  c ∈ [60, 124, 62, 38, 59, 40, 41]

def isWordChar (c : UInt8) : Bool :=
  !isSpace c && !isSymbol c

abbrev Parser := Prog Ptr Stop

/-- Where `gettoken` leaves `s`, and what it returns, from a token on. -/
def token (s : Ptr) : UInt8 × Ptr :=
  match s with
  | [] => (0, s)
  | c :: s' =>
    if c = 62 then
      if s'.headD 0 = 62 then (43, s'.tail) else (62, s')
    else if isSymbol c then (c, s')
    else (97, s.dropWhile isWordChar)

/-- The return value, `*q` and `*eq` of `gettoken`. -/
def gettoken : Parser (UInt8 × Word) := do
  let s ← get
  let q := s.dropWhile isSpace
  let (ret, eq) := token q
  set (eq.dropWhile isSpace)
  pure (ret, ⟨q, eq⟩)

def peek (toks : List UInt8) : Parser Bool := do
  let s ← get
  let s := s.dropWhile isSpace
  set s
  pure (s ≠ [] ∧ s.headD 0 ∈ toks)

def redirMode (tok : UInt8) : Nat × Nat :=
  if tok = 60 then (oRdonly, 0) else (oWronly ||| oCreate, 1)

/-- The redirections that `parseredirs` wraps around its command. -/
def parseredirs : Nat → Parser (List (Redirection Word))
  | 0 => throw .fuel
  | n + 1 => do
    if ← peek [60, 62] then
      let (tok, _) ← gettoken
      let (tok', file) ← gettoken
      if tok' ≠ 97 then throw (.panic "missing file for redirection")
      else
        let (mode, fd) := redirMode tok
        let rs ← parseredirs n
        pure (⟨file, mode, fd⟩ :: rs)
    else pure []

/-- The loop of `parseexec`, with the words and redirections so far. -/
def parseargs : Nat → List Word → List (Redirection Word) →
    Parser (List Word × List (Redirection Word))
  | 0, _, _ => throw .fuel
  | n + 1, argv, rs => do
    if ← peek [124, 41, 38, 59] then pure (argv, rs)
    else
      let (tok, w) ← gettoken
      if tok = 0 then pure (argv, rs)
      else if tok ≠ 97 then throw (.panic "syntax")
      else if maxArgs ≤ argv.length then throw .bounds
      else if maxArgs ≤ argv.length + 1 then throw (.panic "too many args")
      else
        let rs' ← parseredirs n
        parseargs n (argv ++ [w]) (rs ++ rs')

def parsebacks : Nat → Cmd Word → Parser (Cmd Word)
  | 0, _ => throw .fuel
  | n + 1, cmd => do
    if ← peek [38] then
      let _ ← gettoken
      parsebacks n (.back cmd)
    else pure cmd

/-- `parseexec` of a simple command. -/
def parsesimple (n : Nat) : Parser (Cmd Word) := do
  let rs ← parseredirs n
  let (argv, rs) ← parseargs n [] rs
  if maxArgs ≤ argv.length then throw .bounds
  else pure ((Cmd.exec argv).wrap rs)

mutual
def parseline : Nat → Parser (Cmd Word)
  | 0 => throw .fuel
  | n + 1 => do
    let cmd ← parsepipe n
    let cmd ← parsebacks n cmd
    if ← peek [59] then
      let _ ← gettoken
      let right ← parseline n
      pure (.list cmd right)
    else pure cmd

def parsepipe : Nat → Parser (Cmd Word)
  | 0 => throw .fuel
  | n + 1 => do
    let cmd ← parseexec n
    if ← peek [124] then
      let _ ← gettoken
      let right ← parsepipe n
      pure (.pipe cmd right)
    else pure cmd

def parseblock : Nat → Parser (Cmd Word)
  | 0 => throw .fuel
  | n + 1 => do
    if ← peek [40] then
      let _ ← gettoken
      let cmd ← parseline n
      if ← peek [41] then
        let _ ← gettoken
        let rs ← parseredirs n
        pure (cmd.wrap rs)
      else throw (.panic "syntax - missing )")
    else throw (.panic "parseblock")

def parseexec : Nat → Parser (Cmd Word)
  | 0 => throw .fuel
  | n + 1 => do
    if ← peek [40] then parseblock n else parsesimple n
end

/-- `*p = 0` in the buffer that holds the line and its terminator. -/
def setNul (buf : List UInt8) (p : Ptr) : List UInt8 :=
  buf.set (buf.length - 1 - p.length) 0

def nulterminate (buf : List UInt8) : Cmd Word → List UInt8
  | .exec argv => argv.foldl (fun buf w => setNul buf w.eq) buf
  | .redir cmd file _ _ => setNul (nulterminate buf cmd) file.eq
  | .pipe left right => nulterminate (nulterminate buf left) right
  | .list left right => nulterminate (nulterminate buf left) right
  | .back cmd => nulterminate buf cmd

/-- `parsecmd` of the line `s`: the command, and the buffer of its words. -/
def parsecmd (s : List UInt8) : Except Stop (Cmd Word × List UInt8) := do
  let (cmd, s') ← (parseline (4 * s.length + 4)).run s
  let (_, s') ← (peek []).run s'
  if s' ≠ [] then .error (.panic "syntax")
  else .ok (cmd, nulterminate (s ++ [0]) cmd)

def cstring (buf : List UInt8) (w : Word) : List UInt8 :=
  (buf.drop (buf.length - 1 - w.q.length)).takeWhile (· ≠ 0)

end Xv6.Shell
