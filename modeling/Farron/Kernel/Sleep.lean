import Farron.Kernel.Common
import Farron.Kernel.Stop
import Farron.Resumption.Rely

/-! `sleep`, `wakeup` and `kill` from `kernel/proc.c`, around one spin lock.

`ι` are the slots of the process table, `proc` lists them in order, and `data` is what the
spin lock `lk` protects. What a thread does while it holds a lock is split into
sections where another thread could see the difference; the body of a loop that
takes and releases one `p->lock` is one section. -/
namespace Farron
open Resumption

/-- `struct proc`; `lock` is the process in whose thread `p->lock` was taken. -/
structure Proc (ι χ : Type) where
  state : ProcState
  chan : Option χ
  killed : Bool
  pid : Int
  lock : Option ι

structure World (ι χ δ : Type) where
  procs : ι → Proc ι χ
  lk : Option ι
  data : δ

/-- Kernel code; `L` labels its sections. -/
abbrev Kernel (L ι χ δ : Type) := Prog L Stop (World ι χ δ)

variable {L ι χ δ : Type} [Inhabited L] [DecidableEq ι] [DecidableEq χ]

namespace World
variable (w : World ι χ δ)

def setProc (j : ι) (f : Proc ι χ → Proc ι χ) : World ι χ δ :=
  { w with procs := Function.update w.procs j (f (w.procs j)) }

variable (i j : ι) (f : Proc ι χ → Proc ι χ)

omit [DecidableEq χ] in
@[simp] theorem setProc_lk : (w.setProc j f).lk = w.lk := rfl
omit [DecidableEq χ] in
@[simp] theorem setProc_data : (w.setProc j f).data = w.data := rfl
omit [DecidableEq χ] in
@[simp] theorem setProc_same : (w.setProc j f).procs j = f (w.procs j) := Function.update_self ..
omit [DecidableEq χ] in
theorem setProc_ne (h : i ≠ j) : (w.setProc j f).procs i = w.procs i := Function.update_of_ne h ..

end World

/-! ### Spin locks -/

def acquire (i : ι) : Kernel L ι χ δ Unit :=
  .act default
    (fun w => if w.lk = none then some { w with lk := some i } else if w.lk = some i then some w else none)
    fun w => if w.lk = some i then .stop (.panic "acquire") else .ret ()

def release (i : ι) : Kernel L ι χ δ Unit :=
  .act default (fun w => if w.lk = some i then some { w with lk := none } else some w)
    fun w => if w.lk = some i then .ret () else .stop (.panic "release")

/-- A section on what the lock protects. -/
def update (l : L) (f : δ → δ) : Kernel L ι χ δ Unit := .change l fun w => { w with data := f w.data }

def fetch : Kernel L ι χ δ δ := .act default some fun w => .ret w.data

def killed (i : ι) : Kernel L ι χ δ Bool := .act default some fun w => .ret (w.procs i).killed

/-! ### Sleeping and waking -/

/-- `acquire(&p->lock)` of the process itself. -/
def acquireProc (i : ι) : Kernel L ι χ δ Unit :=
  .act default
    (fun w => if (w.procs i).lock = none then some (w.setProc i fun p => { p with lock := some i }) else none)
    fun _ => .ret ()

/-- `release(&p->lock)`. -/
def releaseProc (i : ι) : Kernel L ι χ δ Unit :=
  .change default fun w => w.setProc i fun p => { p with lock := none }

/-- A scheduler takes the lock, finds the process RUNNABLE and switches to it. -/
def resume (i : ι) : Kernel L ι χ δ Unit :=
  .act default
    (fun w => if (w.procs i).lock = none ∧ (w.procs i).state = .runnable then
      some (w.setProc i fun p => { p with state := .running, lock := some i }) else none)
    fun _ => .ret ()

/-- Release the lock and sleep on `chan`; it is held again on return. -/
def sleep (i : ι) (chan : χ) : Kernel L ι χ δ Unit := do
  acquireProc i
  release i
  .change default fun w => w.setProc i fun p => { p with chan := some chan, state := .sleeping }
  -- `sched`: the scheduler that this switches to releases `p->lock`
  releaseProc i
  resume i
  .change default fun w => w.setProc i fun p => { p with chan := none }
  releaseProc i
  acquire i

/-- What `sleep` does without the spin lock. -/
def slumber (i : ι) (chan : χ) : Kernel L ι χ δ Unit := do
  .change default fun w => w.setProc i fun p => { p with chan := some chan, state := .sleeping }
  releaseProc i
  resume i
  .change default fun w => w.setProc i fun p => { p with chan := none }
  releaseProc i

omit [DecidableEq χ] in
theorem sleep_eq (i : ι) (chan : χ) : (sleep i chan : Kernel L ι χ δ Unit) =
    acquireProc i >>= fun _ => release i >>= fun _ => slumber i chan >>= fun _ => acquire i := rfl

/-- `sleep` under another spin lock. -/
def sleepElsewhere (i : ι) (chan : χ) : Kernel L ι χ δ Unit := do
  acquireProc i
  slumber i chan

/-- The body of the loop of `wakeup`. -/
def Proc.wake (chan : χ) (p : Proc ι χ) : Proc ι χ :=
  if p.state = .sleeping ∧ p.chan = some chan then { p with state := .runnable } else p

/-- Wake up all processes sleeping on `chan`. -/
def wakeup (chan : χ) : List ι → Kernel L ι χ δ Unit
  | [] => return
  | j :: rest =>
    .act default (fun w => if (w.procs j).lock = none then some (w.setProc j (Proc.wake chan)) else none)
      fun _ => wakeup chan rest

/-- What `kill` does to the process it finds. -/
def Proc.kill (p : Proc ι χ) : Proc ι χ :=
  { p with killed := true, state := if p.state = .sleeping then .runnable else p.state }

def kill (pid : Int) : List ι → Kernel L ι χ δ Int
  | [] => return -1
  | j :: rest =>
    .act default
      (fun w => if (w.procs j).lock = none then
        some (if (w.procs j).pid = pid then w.setProc j Proc.kill else w) else none)
      fun w => if (w.procs j).pid = pid then return 0 else kill pid rest

end Farron
