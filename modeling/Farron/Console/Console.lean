import Farron.Pipe.Pipe

/-! The console, from `kernel/console.c`: the line discipline and `read`.

The indices are 32-bit words. `committed` and `taken` are history, read by no function: the bytes
ever given to the readers, and those ever taken out of the buffer, end-of-file marks included,
each with the reader. What a read has taken and stored is kept beside its result
(`Part`). Echoing and the process list of `^P` are left out: they touch nothing here. -/
namespace Farron
open Resumption

def inputBuf : Nat := 128

/-- `C('D')`, `C('U')`, `C('H')`, `C('P')`. -/
def ctrlD : UInt8 := 4
def ctrlU : UInt8 := 21
def ctrlH : UInt8 := 8
def ctrlP : UInt8 := 16
def delete : UInt8 := 0x7f
def carriageReturn : UInt8 := 13

/-- `b - a`, of words. -/
def ahead (a b : Nat) : Nat := u32 (b + 2 ^ 32 - a)

structure Console (ι : Type) where
  buf : Nat → UInt8
  r : Nat
  w : Nat
  e : Nat
  committed : List UInt8
  taken : List (ι × UInt8)

/-- The channel `&cons.r`. -/
abbrev ConsoleChan := Unit

/-- `copy ok`: a reader copies a byte out, which the address allows or not. `giveUp took`: a killed
reader returns, having taken so many bytes. -/
inductive ConsoleLabel
  | plain
  | copy (ok : Bool)
  | giveUp (took : Nat)

instance : Inhabited ConsoleLabel := ⟨.plain⟩

variable {ι : Type} [DecidableEq ι]

abbrev ConsoleCode (ι : Type) := Kernel ConsoleLabel ι ConsoleChan (Console ι)

namespace Console
variable (d : Console ι)

/-- `cons.buf[cons.r % INPUT_BUF]`. -/
def next : UInt8 := d.buf (d.r % inputBuf)

/-- `cons.r++`, by reader `i`. -/
def take (i : ι) : Console ι := { d with r := u32 (d.r + 1), taken := d.taken ++ [(i, d.next)] }

/-- `cons.r++` and `cons.r--`. -/
def putBack : Console ι := { d with r := u32 (u32 (d.r + 1) + 2 ^ 32 - 1) }

/-- `cons.e--`. -/
def erase : Console ι := { d with e := u32 (d.e + 2 ^ 32 - 1) }

def backspace : Console ι := if d.e ≠ d.w then d.erase else d

/-- The loop of `^U`; as indices are words, it ends. -/
def killLine : Nat → Console ι → Console ι
  | 0, d => d
  | n + 1, d => if d.e ≠ d.w ∧ d.buf (u32 (d.e + 2 ^ 32 - 1) % inputBuf) ≠ newline then killLine n d.erase else d

/-- `cons.buf[cons.e++ % INPUT_BUF] = c`. -/
def input (c : UInt8) : Console ι :=
  { d with buf := Function.update d.buf (d.e % inputBuf) c, e := u32 (d.e + 1) }

/-- `cons.w = cons.e`. -/
def commit : Console ι :=
  { d with
    w := d.e
    committed := d.committed ++ (List.range (ahead d.w d.e)).map fun k => d.buf ((d.w + k) % inputBuf) }

end Console

/-! ### Input -/

/-- A section on the console. -/
def onConsole (f : Console ι → Console ι) : ConsoleCode ι Unit := update .plain f

section Calls
variable (i : ι) (proc : List ι) (rounds : Nat)

/-- A character that is stored; on the K210 return is not one, under QEMU it is a newline. -/
def storeChar (c : UInt8) : ConsoleCode ι Unit := do
  onConsole (·.input c)
  let d ← fetch
  if c = newline ∨ c = ctrlD ∨ d.e = u32 (d.r + inputBuf) then
    onConsole Console.commit
    wakeup () proc
  else return

/-- The `switch` of `consoleintr`. -/
def consoleChar (qemu : Bool) (c : UInt8) : ConsoleCode ι Unit :=
  if c = ctrlP then return
  else if c = ctrlU then onConsole (Console.killLine (2 ^ 32))
  else if c = ctrlH ∨ c = delete then onConsole Console.backspace
  else do
    let d ← fetch
    if c ≠ 0 ∧ ahead d.r d.e < inputBuf then
      if c = carriageReturn then
        if qemu = true then storeChar proc newline else return
      else storeChar proc c
    else return

def consoleintr (qemu : Bool) (c : UInt8) : ConsoleCode ι Unit := do
  acquire i
  consoleChar proc qemu c
  release i

/-! ### Reading -/

/-- What a read has done so far: the bytes stored at the address, in order, those taken out of the
buffer, and, if it has come to an end-of-file mark, the number of the mark. -/
structure Part where
  got : List UInt8
  took : List UInt8
  mark : Option Nat

/-- The loop of `consoleread` that waits for input; false if it has given up, and released
the lock. -/
def waitInput (took : Nat) : Nat → ConsoleCode ι Bool
  | 0 => .stop .spin
  | n + 1 => do
    let d ← fetch
    if d.r = d.w then
      if ← killed i then
        .change (.giveUp took) id
        release i
        return false
      else
        sleep i ()
        waitInput took n
    else return true

/-- The loop of `consoleread`; `n` bytes are left, and `ok k` says whether byte `k` at the address can be
written. The result says whether the lock is still held. -/
def consolereadLoop (ok : Nat → Bool) (target : Nat) : Nat → Part → ConsoleCode ι (Bool × Part)
  | 0, x => return (true, x)
  | n + 1, x => do
    if ← waitInput i x.took.length rounds then
      let d ← fetch
      if d.next = ctrlD then
        -- a mark behind other bytes is left for the next read
        if n + 1 < target then
          onConsole Console.putBack
          return (true, { x with mark := some d.taken.length })
        else
          onConsole (·.take i)
          return (true, { x with took := x.took ++ [d.next], mark := some d.taken.length })
      else
        update (.copy (ok x.got.length)) (·.take i)
        if ok x.got.length then
          if d.next = newline then return (true, { x with got := x.got ++ [d.next], took := x.took ++ [d.next] })
          else consolereadLoop ok target n { x with got := x.got ++ [d.next], took := x.took ++ [d.next] }
        else return (true, { x with took := x.took ++ [d.next] })
    else return (false, x)

/-- A read that has returned. -/
structure ConsoleRead where
  want : Int
  ret : Int
  part : Part

def consoleread (ok : Nat → Bool) (n : Int) : ConsoleCode ι ConsoleRead := do
  acquire i
  let r ← consolereadLoop i rounds ok n.toNat n.toNat ⟨[], [], none⟩
  if r.1 = true then
    release i
    return ⟨n, r.2.got.length, r.2⟩
  else return ⟨n, -1, r.2⟩

end Calls

/-! ### The processes -/

/-- The interrupt handler runs on behalf of any of them. -/
inductive ConsoleCall
  | intr (qemu : Bool) (c : UInt8)
  | read (ok : Nat → Bool) (n : Int)
  | kill (pid : Int)

/-- A process remembers what its reads came to, in order. -/
def ConsoleCall.body (proc : List ι) (rounds : Nat) (i : ι) (l : List ConsoleRead) : ConsoleCall → ConsoleCode ι (List ConsoleRead)
  | .intr qemu c => do
    consoleintr i proc qemu c
    return l
  | .read ok n => do
    let x ← consoleread i rounds ok n
    return l ++ [x]
  | .kill pid => do
    let _ ← Farron.kill pid proc
    return l

def consoleClient (proc : List ι) (rounds : Nat) :
    Client ConsoleLabel Stop (World ι ConsoleChan (Console ι)) ι (List ConsoleRead) ConsoleCall where
  enabled _ _ := True
  body i l c := c.body proc rounds i l
  pass _ _ _ _ := False

/-- After `consoleinit`. -/
def consoleStarted (procs : ι → Proc ι ConsoleChan) (buf : Nat → UInt8) :
    Config ConsoleLabel Stop (World ι ConsoleChan (Console ι)) ι (List ConsoleRead) where
  shared := ⟨procs, none, ⟨buf, 0, 0, 0, [], []⟩⟩
  thread _ := .ret []

end Farron
