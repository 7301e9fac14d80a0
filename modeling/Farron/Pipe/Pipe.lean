import Farron.Kernel.Sleep

/-! Pipes, from `kernel/pipe.c`, with the part of `kernel/file.c` that opens and closes ends.

One pipe, its two files and the processes that share it. The counters are 32-bit
words. `put` and `taken` are history, read by no function: the bytes ever put into the
ring and ever taken out of it. A loop that sleeps has a bound, `rounds`. -/
namespace Farron
open Resumption

def pipeSize : Nat := 512

structure Pipe where
  data : Nat → UInt8
  nread : Nat
  nwrite : Nat
  readopen : Bool
  writeopen : Bool
  put : List UInt8
  taken : List UInt8

/-- The pipe and the field `ref` of its two files. -/
structure PipeFiles where
  pipe : Pipe
  readRef : Nat
  writeRef : Nat

/-- The channels `&pi->nread` and `&pi->nwrite`. -/
inductive PipeChan
  | nread
  | nwrite
  deriving DecidableEq

/-- `giveUp moved`: a killed `pipewrite` returns, having put `moved` bytes into the ring since
it took the lock or last woke the readers. -/
inductive PipeLabel
  | plain
  | giveUp (moved : Nat)

instance : Inhabited PipeLabel := ⟨.plain⟩

variable {ι : Type} [DecidableEq ι]

abbrev PipeCode (ι : Type) := Kernel PipeLabel ι PipeChan PipeFiles

namespace Pipe

def empty (p : Pipe) : Prop := p.nread = p.nwrite
def full (p : Pipe) : Prop := p.nwrite = u32 (p.nread + pipeSize)

instance (p : Pipe) : Decidable p.empty := inferInstanceAs (Decidable (_ = _))
instance (p : Pipe) : Decidable p.full := inferInstanceAs (Decidable (_ = _))

/-- `pi->data[pi->nwrite++ % PIPESIZE] = ch`. -/
def store (p : Pipe) (ch : UInt8) : Pipe :=
  { p with
    data := Function.update p.data (p.nwrite % pipeSize) ch
    nwrite := u32 (p.nwrite + 1)
    put := p.put ++ [ch] }

/-- `ch = pi->data[pi->nread++ % PIPESIZE]`. -/
def next (p : Pipe) : UInt8 := p.data (p.nread % pipeSize)

def drop (p : Pipe) : Pipe :=
  { p with
    nread := u32 (p.nread + 1)
    taken := p.taken ++ [p.next] }

def isOpen (p : Pipe) (writable : Bool) : Bool := if writable then p.writeopen else p.readopen

/-- `pi->writeopen = 0` or `pi->readopen = 0`. -/
def shut (p : Pipe) (writable : Bool) : Pipe :=
  if writable then { p with writeopen := false } else { p with readopen := false }

end Pipe

/-- A section on the pipe. -/
def onPipe (f : Pipe → Pipe) : PipeCode ι Unit :=
  update .plain fun d => { d with pipe := f d.pipe }

/-- The caller's memory: what is at its bytes, and whether each can be copied. -/
structure UserBuf where
  data : Nat → UInt8
  ok : Nat → Bool

variable (i : ι) (proc : List ι) (rounds : Nat)

/-- The loop of `pipewrite` that waits for room, or gives up and releases the lock. It gets
and returns the number of bytes that the readers have not been woken for. -/
def waitRoom : Nat → Nat → PipeCode ι (Option Nat)
  | 0, _ => .stop .spin
  | n + 1, moved => do
    let d ← fetch
    if d.pipe.full then
      if d.pipe.readopen = false then
        release i
        return none
      else
        if ← killed i then
          .change (.giveUp moved) id
          release i
          return none
        else
          wakeup .nread proc
          sleep i .nwrite
          waitRoom n 0
    else return some moved

/-- The loop of `pipewrite`: how many bytes were put, unless it gave up; `n` are left. -/
def pipewriteLoop (buf : UserBuf) : Nat → Nat → Nat → PipeCode ι (Option Nat)
  | 0, at', _ => return some at'
  | n + 1, at', moved => do
    match ← waitRoom i proc rounds moved with
    | none => return none
    | some moved' =>
      if buf.ok at' then
        onPipe fun p => p.store (buf.data at')
        pipewriteLoop buf n (at' + 1) (moved' + 1)
      else return some at'

def pipewrite (buf : UserBuf) (n : Int) : PipeCode ι Int := do
  acquire i
  match ← pipewriteLoop i proc rounds buf n.toNat 0 0 with
  | none => return -1
  | some k =>
    wakeup .nread proc
    release i
    return k

/-- The loop of `piperead` that waits for a byte; false if it has given up, and released
the lock. -/
def waitByte : Nat → PipeCode ι Bool
  | 0 => .stop .spin
  | n + 1 => do
    let d ← fetch
    if d.pipe.empty ∧ d.pipe.writeopen = true then
      if ← killed i then
        release i
        return false
      else
        sleep i .nread
        waitByte n
    else return true

/-- The loop of `piperead` that takes bytes: how many were copied out. -/
def pipereadLoop (buf : UserBuf) : Nat → Nat → PipeCode ι Nat
  | 0, at' => return at'
  | n + 1, at' => do
    let d ← fetch
    if d.pipe.empty then return at'
    else
      onPipe Pipe.drop
      if buf.ok at' then pipereadLoop buf n (at' + 1) else return at'

def piperead (buf : UserBuf) (n : Int) : PipeCode ι Int := do
  acquire i
  if ← waitByte i rounds then
    let k ← pipereadLoop buf n.toNat 0
    wakeup .nwrite proc
    release i
    return k
  else return -1

/-- The page is given back once both ends are closed; nobody can use it then. -/
def pipeclose (writable : Bool) : PipeCode ι Unit := do
  acquire i
  onPipe fun p => p.shut writable
  wakeup (if writable then .nread else .nwrite) proc
  release i

/-! ### The files of the two ends -/

def PipeFiles.ref (d : PipeFiles) (writable : Bool) : Nat := if writable then d.writeRef else d.readRef

def PipeFiles.setRef (d : PipeFiles) (writable : Bool) (n : Nat) : PipeFiles :=
  if writable then { d with writeRef := n } else { d with readRef := n }

/-- `f->ref++` and `--f->ref`, past the check that there is a reference. -/
def PipeFiles.dup (d : PipeFiles) (writable : Bool) : PipeFiles :=
  if d.ref writable < 1 then d else d.setRef writable (d.ref writable + 1)

def PipeFiles.drop (d : PipeFiles) (writable : Bool) : PipeFiles :=
  if d.ref writable < 1 then d else d.setRef writable (d.ref writable - 1)

/-- `filedup` of an end. -/
def filedup (writable : Bool) : PipeCode ι Unit :=
  .act .plain (fun w => some { w with data := w.data.dup writable })
    fun w => if w.data.ref writable < 1 then .stop (.panic "filedup") else .ret ()

/-- `fileclose` of an end. -/
def fileclose (writable : Bool) : PipeCode ι Unit :=
  .act .plain (fun w => some { w with data := w.data.drop writable })
    fun w =>
      if w.data.ref writable < 1 then .stop (.panic "fileclose")
      else if w.data.ref writable - 1 > 0 then .ret ()
      else pipeclose i proc writable

/-! ### The processes -/

/-- How many descriptors of each end a process has. -/
structure Ends where
  reads : Nat
  writes : Nat

def Ends.count (e : Ends) (writable : Bool) : Nat := if writable then e.writes else e.reads

def Ends.add (e : Ends) (writable : Bool) : Ends :=
  if writable then { e with writes := e.writes + 1 } else { e with reads := e.reads + 1 }

def Ends.remove (e : Ends) (writable : Bool) : Ends :=
  if writable then { e with writes := e.writes - 1 } else { e with reads := e.reads - 1 }

inductive PipeCall
  | read (buf : UserBuf) (n : Int)
  | write (buf : UserBuf) (n : Int)
  | dup (writable : Bool)
  | close (writable : Bool)
  | kill (pid : Int)

/-- A call on an end needs a descriptor of it. -/
def PipeCall.enabled (e : Ends) : PipeCall → Prop
  | .read _ _ => 0 < e.reads
  | .write _ _ => 0 < e.writes
  | .dup writable | .close writable => 0 < e.count writable
  | .kill _ => True

def PipeCall.body (e : Ends) : PipeCall → PipeCode ι Ends
  | .read buf n => do
    let _ ← piperead i proc rounds buf n
    return e
  | .write buf n => do
    let _ ← pipewrite i proc rounds buf n
    return e
  | .dup writable => do
    filedup writable
    return e.add writable
  | .close writable => do
    fileclose i proc writable
    return e.remove writable
  | .kill pid => do
    let _ ← Farron.kill pid proc
    return e

/-- Descriptors change hands between a process and its new child. -/
def Ends.pass (e₁ e₂ e₁' e₂' : Ends) : Prop :=
  e₁'.reads + e₂'.reads = e₁.reads + e₂.reads ∧ e₁'.writes + e₂'.writes = e₁.writes + e₂.writes

def pipeClient (proc : List ι) (rounds : Nat) :
    Client PipeLabel Stop (World ι PipeChan PipeFiles) ι Ends PipeCall where
  enabled := PipeCall.enabled
  body i e c := c.body i proc rounds e
  pass := Ends.pass

/-- What `pipealloc` makes. -/
def Pipe.fresh (data : Nat → UInt8) : Pipe :=
  { data, nread := 0, nwrite := 0, readopen := true, writeopen := true, put := [], taken := [] }

/-- The pipe right after `pipealloc`, whose caller `i` has both ends; nobody waits for it. -/
def pipeOpened (i : ι) (procs : ι → Proc ι PipeChan) (data : Nat → UInt8) :
    Config PipeLabel Stop (World ι PipeChan PipeFiles) ι Ends where
  shared := ⟨procs, none, ⟨.fresh data, 1, 1⟩⟩
  thread j := .ret (if j = i then ⟨1, 1⟩ else ⟨0, 0⟩)

end Farron
