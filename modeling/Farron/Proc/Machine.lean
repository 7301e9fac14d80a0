import Farron.Kernel.Sleep
import Farron.Resumption.Harts

/-! The harts, the process table and the spin locks.

A hart executes one thread of control: its scheduler or the kernel thread of a process
(`exec`); `hart` is the one whose turn it is, `mycpu()`. A spin lock is the hart that holds it,
and taking one disables interrupts there (`pushOff`). `exits` and `frees` are history, read
by no function: who exited with which status, and what `freeproc` was given. -/
namespace Farron.Harts
open Resumption

inductive Thread (H ι : Type)
  | sched (h : H)
  | proc (p : ι)
  deriving DecidableEq

/-- `p->lock`, `pid_lock` and the locks of the rest of the kernel. -/
inductive Lock (ι κ : Type)
  | proc (p : ι)
  | pid
  | other (k : κ)
  deriving DecidableEq

/-- What a process sleeps on: in `wait` its own slot, else something of the rest of the
kernel. -/
inductive Chan (ι κ : Type)
  | proc (p : ι)
  | other (c : κ)
  deriving DecidableEq

/-- `struct proc`, the fields that `p->lock` protects. -/
structure Proc (ι κ : Type) where
  state : ProcState
  parent : Option ι
  chan : Option (Chan ι κ)
  killed : Bool
  xstate : Int
  pid : Int

/-- `struct cpu`, with the bit `SSTATUS_SIE` of the hart. -/
structure Cpu (ι : Type) where
  proc : Option ι
  noff : Nat
  intena : Bool
  sie : Bool

/-- A process of slot `slot` that has exited. -/
structure Exit (ι : Type) where
  slot : ι
  pid : Int
  xstate : Int
  deriving DecidableEq

/-- A process given to `freeproc` by process `by'`: what it was then, and whether a hart was
executing its kernel thread. -/
structure Free (ι : Type) where
  exit : Exit ι
  state : ProcState
  parent : Option ι
  by' : ι
  running : Bool

/-- `fresh p`: the context saved for `p` is the one that `allocproc` made, and continues in
`forkret`. -/
structure Machine (H ι κ : Type) where
  hart : H
  procs : ι → Proc ι κ
  locks : Lock ι κ → Option H
  cpus : H → Cpu ι
  exec : H → Thread H ι
  fresh : ι → Bool
  nextpid : Int
  exits : List (Exit ι)
  frees : List (Free ι)

variable {H ι κ : Type} [DecidableEq H] [DecidableEq ι] [DecidableEq κ]

namespace Machine
variable (m : Machine H ι κ)

def cpu : Cpu ι := m.cpus m.hart

def setCpu (f : Cpu ι → Cpu ι) : Machine H ι κ := { m with cpus := Function.update m.cpus m.hart (f m.cpu) }

def setProc (q : ι) (f : Proc ι κ → Proc ι κ) : Machine H ι κ :=
  { m with procs := Function.update m.procs q (f (m.procs q)) }

def setLock (l : Lock ι κ) (o : Option H) : Machine H ι κ := { m with locks := Function.update m.locks l o }

def setExec (x : Thread H ι) : Machine H ι κ := { m with exec := Function.update m.exec m.hart x }

/-- `holding(l)`. -/
def holding (l : Lock ι κ) : Prop := m.locks l = some m.hart

instance (l : Lock ι κ) : Decidable (m.holding l) := inferInstanceAs (Decidable (_ = _))

/-- `push_off`. -/
def pushOff : Machine H ι κ :=
  m.setCpu fun c => { c with intena := if c.noff = 0 then c.sie else c.intena, noff := c.noff + 1, sie := false }

/-- `pop_off`, past its checks. -/
def popOff : Machine H ι κ :=
  m.setCpu fun c => { c with noff := c.noff - 1, sie := if c.noff - 1 = 0 ∧ c.intena = true then true else c.sie }

/-- `intr_on` and `intr_off`. -/
def intr (on : Bool) : Machine H ι κ := m.setCpu fun c => { c with sie := on }

/-- The process switches to the scheduler of its hart. -/
def toSched (p : ι) : Machine H ι κ :=
  { m.setExec (.sched m.hart) with fresh := Function.update m.fresh p false }

/-- What `freeproc` does to the process table. -/
def freeproc [Fintype H] (p q : ι) : Machine H ι κ :=
  { m.setProc q fun x => { x with state := .unused, parent := none, chan := none, killed := false, xstate := 0, pid := 0 } with
    frees := ⟨⟨q, (m.procs q).pid, (m.procs q).xstate⟩, (m.procs q).state, (m.procs q).parent, p,
      decide (∃ h, m.exec h = .proc q)⟩ :: m.frees }

end Machine
end Farron.Harts
