import Farron.Shell.Tokens

/-! The command parser, from `user/sh.c`.

`parsecmd` comes down over a line by functions that call each other and share the pointer into it, and cuts the words
of the line afterwards, by zeros that `nulterminate` writes behind them. What it is to accept is a grammar over tokens
(`Derives`), whose derivations build the tree. `malloc` is taken to succeed, and the stack to be deep enough. -/
namespace Farron.Sh
open Strings Descent

def maxargs : Nat := 10

def oRdonly : Nat := 0x000
def oWronly : Nat := 0x001
def oAppend : Nat := 0x004
def oCreate : Nat := 0x200
def oTrunc : Nat := 0x400

/-- A command; `argv` and `eargv` are one list of pairs, without the null pointers at its end. -/
inductive Cmd
  | execcmd (argv : List (Nat × Nat))
  | redircmd (cmd : Cmd) (file efile mode fd : Nat)
  | pipecmd (left right : Cmd)
  | listcmd (left right : Cmd)
  | backcmd (cmd : Cmd)
  deriving DecidableEq

namespace Cmd

/-- `cmd->argv[argc] = q; cmd->eargv[argc] = eq`, where `cmd` is what the redirections were put around. -/
def setArg (q eq : Nat) : Cmd → Cmd
  | execcmd argv => execcmd (argv ++ [(q, eq)])
  | redircmd cmd file efile mode fd => redircmd (cmd.setArg q eq) file efile mode fd
  | cmd => cmd

end Cmd

section Code
variable (mem : Nat → UInt8) (es : Nat)

/-- What `parseredirs` puts around a command; `tok` is `<`, `>` or `+`. -/
def redirect (tok : UInt8) (q eq : Nat) (cmd : Cmd) : Cmd :=
  if tok = 60 then .redircmd cmd q eq oRdonly 0
  else if tok = greater then .redircmd cmd q eq (oWronly ||| oCreate ||| oTrunc) 1
  else if tok = plus then .redircmd cmd q eq (oWronly ||| oCreate ||| oAppend) 1
  else cmd

def parseredirs : Nat → Cmd → Parse Cmd
  | 0, _ => Parser.unfinished
  | n + 1, cmd => do
    if ← peek mem es [60, 62] then
      let tok ← gettok mem es
      let (tok', q, eq) ← gettoken mem es
      if tok' ≠ letterA then Parser.stop "missing file for redirection"
      else parseredirs n (redirect tok q eq cmd)
    else return cmd

/-- The loop of `parseexec`. -/
def parseargs : Nat → Cmd → Nat → Parse Cmd
  | 0, _, _ => Parser.unfinished
  | n + 1, ret, argc => do
    if ← peek mem es [124, 41, 38, 59] then return ret
    else
      let (tok, q, eq) ← gettoken mem es
      if tok = 0 then return ret
      else if tok ≠ letterA then Parser.stop "syntax"
      else if argc + 1 ≥ maxargs then Parser.stop "too many args"
      else
        let ret ← parseredirs mem es n (ret.setArg q eq)
        parseargs n ret (argc + 1)

/-- The loop of `parseline`. -/
def parsebacks : Nat → Cmd → Parse Cmd
  | 0, _ => Parser.unfinished
  | n + 1, cmd => do
    if ← peek mem es [38] then
      let _ ← gettok mem es
      parsebacks n (.backcmd cmd)
    else return cmd

mutual

def parseline : Nat → Parse Cmd
  | 0 => Parser.unfinished
  | n + 1 => do
    let cmd ← parsepipe n
    let cmd ← parsebacks mem es n cmd
    if ← peek mem es [59] then
      let _ ← gettok mem es
      let right ← parseline n
      return .listcmd cmd right
    else return cmd

def parsepipe : Nat → Parse Cmd
  | 0 => Parser.unfinished
  | n + 1 => do
    let cmd ← parseexec n
    if ← peek mem es [124] then
      let _ ← gettok mem es
      let right ← parsepipe n
      return .pipecmd cmd right
    else return cmd

def parseblock : Nat → Parse Cmd
  | 0 => Parser.unfinished
  | n + 1 => do
    if ← peek mem es [40] then
      let _ ← gettok mem es
      let cmd ← parseline n
      if ← peek mem es [41] then
        let _ ← gettok mem es
        parseredirs mem es n cmd
      else Parser.stop "syntax - missing )"
    else Parser.stop "parseblock"

def parseexec : Nat → Parse Cmd
  | 0 => Parser.unfinished
  | n + 1 => do
    if ← peek mem es [40] then parseblock n
    else
      let ret ← parseredirs mem es n (.execcmd [])
      parseargs mem es n ret 0

end

end Code

/-- `nulterminate`. -/
def nulterminate : Cmd → (Nat → UInt8) → Nat → UInt8
  | .execcmd argv, mem => argv.foldl (fun mem w => Function.update mem w.2 0) mem
  | .redircmd cmd _ efile _ _, mem => Function.update (nulterminate cmd mem) efile 0
  | .pipecmd left right, mem => nulterminate right (nulterminate left mem)
  | .listcmd left right, mem => nulterminate right (nulterminate left mem)
  | .backcmd cmd, mem => nulterminate cmd mem

/-- `strlen`, whose loop goes on until there is a zero. -/
def strlen? (mem : Nat → UInt8) : Nat → Nat → Option Nat
  | 0, _ => none
  | n + 1, s => if mem s = 0 then some 0 else (strlen? mem n (s + 1)).map (· + 1)

/-- `parsecmd`: the command and the memory, or the message of the `panic`. -/
def parsecmd (n : Nat) (mem : Nat → UInt8) (s : Nat) : Option (Except String (Cmd × (Nat → UInt8))) :=
  match strlen? mem n s with
  | none => none
  | some len =>
    let parse : Parse Cmd := do
      let cmd ← parseline mem (s + len) n
      let _ ← peek mem (s + len) []
      return cmd
    match parse s with
    | none => none
    | some (.error msg) => some (.error msg)
    | some (.ok (cmd, s')) => if s' ≠ s + len then some (.error "syntax") else some (.ok (cmd, nulterminate cmd mem))

end Farron.Sh
