import Farron.Proc.Code
import Farron.Resumption.Alone

/-! Nested disabling of interrupts, from `kernel/intr.c` and `kernel/spinlock.c`.

Harts, processes and locks are those of `Proc.Machine`. Here `push_off` reads the interrupt bit in
a section of its own, before it turns interrupts off, and `acquire` spins with interrupts off. A
thread takes and releases locks, calls `push_off` and `pop_off`, and switches as it likes, as
long as it undoes only what it has done and follows the rules for `sched` (`Call.enabled`);
so do the interrupts that come in between (`Irq`). `log` is history, read by no function. -/
namespace Farron.Intr
open Resumption Harts

/-- A call of `push_off` on hart `h`, with `old` the interrupt bit it has read; a call of `pop_off`,
with the bit that it leaves; and the making of the context that a new process begins with. -/
inductive Event (H ι : Type)
  | push (h : H) (x : Thread H ι) (old : Bool)
  | pop (h : H) (x : Thread H ι) (sie : Bool)
  | context (p : ι)
  deriving DecidableEq

structure Traced (H ι κ : Type) extends Machine H ι κ where
  log : List (Event H ι)

abbrev Code (H ι κ : Type) := Prog Unit Stop (Traced H ι κ)

variable {H ι κ : Type} [DecidableEq H] [DecidableEq ι] [DecidableEq κ]

namespace Traced
variable (w : Traced H ι κ)

def on (f : Machine H ι κ → Machine H ι κ) : Traced H ι κ := { w with toMachine := f w.toMachine }

/-- The thread that the hart executes. -/
def thread : Thread H ι := w.exec w.hart

/-- `push_off`, from where it has read `old`. -/
def pushOff (old : Bool) : Traced H ι κ :=
  { w.on fun m => m.setCpu fun c => { c with intena := if c.noff = 0 then old else c.intena, noff := c.noff + 1, sie := false } with
    log := .push w.hart w.thread old :: w.log }

/-- `pop_off`, past its checks. -/
def popOff : Traced H ι κ :=
  { w.on Machine.popOff with log := .pop w.hart w.thread w.toMachine.popOff.cpu.sie :: w.log }

end Traced

/-- A section of the harts, processes and locks. -/
def lift {α : Type} (c : Harts.Code H ι κ α) : Code H ι κ α := c.zoom Traced.toMachine fun w m => { w with toMachine := m }

def modify (f : Machine H ι κ → Machine H ι κ) : Code H ι κ Unit := .change () fun w => w.on f

/-! ### Interrupts and spin locks -/

def pushOff : Code H ι κ Unit := do
  let w ← .look ()
  .change () fun w' => w'.pushOff w.cpu.sie

def popOff : Code H ι κ Unit :=
  .act () (fun w => some (if w.cpu.sie = false ∧ 1 ≤ w.cpu.noff then w.popOff else w))
    fun w =>
      if w.cpu.sie = true then .stop (.panic "pop_off - interruptible")
      else if w.cpu.noff < 1 then .stop (.panic "pop_off")
      else .ret ()

/-- The lock and `lk->cpu` are set at once: only this hart compares `lk->cpu` with itself. -/
def acquire (l : Lock ι κ) : Code H ι κ Unit := do
  pushOff
  let w ← .look ()
  if w.holding l then .stop (.panic "acquire")
  else .act () (fun w => if w.locks l = none then some (w.on fun m => m.setLock l (some m.hart)) else none) fun _ => .ret ()

def release (l : Lock ι κ) : Code H ι κ Unit := do
  let w ← .look ()
  if w.holding l then do
    modify fun m => m.setLock l none
    popOff
  else .stop (.panic "release")

/-! ### Switching -/

/-- The part before `usertrapret`. -/
def forkret (p : ι) : Code H ι κ Unit := release (.proc p)

/-- The kernel thread of a slot that has never been used. -/
def born (p : ι) : Code H ι κ Unit :=
  .act () some fun w => if w.fresh p = true then forkret p else .stop (.fault "context")

def yield (p : ι) : Code H ι κ Unit := do
  acquire (.proc p)
  modify fun m => m.setProc p fun x => { x with state := .runnable }
  let fresh ← lift (Harts.sched p)
  resumed (release (.proc p)) fresh

/-- The loop of `scheduler` over the table. -/
def schedule : List ι → Code H ι κ Unit
  | [] => return
  | q :: rest => do
    acquire (.proc q)
    .act ()
      (fun w => some (if (w.procs q).state = .runnable then
          w.on fun m => (m.setProc q fun x => { x with state := .running }).setCpu fun c => { c with proc := some q }
        else w))
      fun w =>
        if (w.procs q).state = .runnable then do
          modify fun m => m.setExec (.proc q)
          -- the process has switched back
          modify fun m => m.setCpu fun c => { c with proc := none }
          release (.proc q)
          schedule rest
        else do
          release (.proc q)
          schedule rest

/-- One round of `scheduler`. -/
def scheduler (table : List ι) : Code H ι κ Unit := do
  modify fun m => m.intr true
  schedule table

/-! ### What threads do -/

/-- What is done to a process whose lock is held: it is woken up or killed, freed by `wait`, or made in
its slot by `fork`. -/
inductive Care
  | wake
  | reap
  | spawn

def Care.change (q : ι) : Care → Traced H ι κ → Traced H ι κ
  | .wake, w => w.on fun m => m.setProc q fun x => { x with state := if x.state = .sleeping then .runnable else x.state }
  | .reap, w => w.on fun m => m.setProc q fun x => { x with state := if x.state = .zombie then .unused else x.state }
  | .spawn, w =>
    if (w.procs q).state = .unused then
      { w.on fun m => { m.setProc q fun x => { x with state := .runnable } with fresh := Function.update m.fresh q true } with
        log := .context q :: w.log }
    else w

inductive Op (ι κ : Type)
  | pushOff
  | popOff
  | acquire (l : Lock ι κ)
  | release (l : Lock ι κ)
  | care (q : ι) (c : Care)

/-- What a thread has to undo: the locks it holds, and its calls of `push_off`. -/
structure Open (ι κ : Type) where
  held : List (Lock ι κ)
  bare : Nat
  deriving DecidableEq

namespace Op

def run : Op ι κ → Code H ι κ Unit
  | .pushOff => Intr.pushOff
  | .popOff => Intr.popOff
  | .acquire l => Intr.acquire l
  | .release l => Intr.release l
  | .care q c => .change () (c.change q)

/-- A thread undoes what it has done, and looks after processes whose locks it holds. -/
def allowed (n : Open ι κ) : Op ι κ → Prop
  | .pushOff => True
  | .popOff => 0 < n.bare
  | .acquire l => l ∉ n.held
  | .release l => l ∈ n.held
  | .care q _ => .proc q ∈ n.held

instance (n : Open ι κ) : ∀ o : Op ι κ, Decidable (o.allowed n)
  | .pushOff => isTrue trivial
  | .popOff => inferInstanceAs (Decidable (0 < n.bare))
  | .acquire l => inferInstanceAs (Decidable (l ∉ n.held))
  | .release l => inferInstanceAs (Decidable (l ∈ n.held))
  | .care q _ => inferInstanceAs (Decidable (.proc q ∈ n.held))

def next (n : Open ι κ) : Op ι κ → Open ι κ
  | .pushOff => { n with bare := n.bare + 1 }
  | .popOff => { n with bare := n.bare - 1 }
  | .acquire l => { n with held := l :: n.held }
  | .release l => { n with held := n.held.erase l }
  | .care _ _ => n

/-- What process `p` may do between changing its state and `sched`. -/
def keeps (p : ι) : Op ι κ → Prop
  | .release l => l ≠ .proc p
  | .care _ _ => False
  | _ => True

instance (p : ι) : ∀ o : Op ι κ, Decidable (o.keeps p)
  | .pushOff | .popOff | .acquire _ => isTrue trivial
  | .release l => inferInstanceAs (Decidable (l ≠ .proc p))
  | .care _ _ => isFalse id

def runs : List (Op ι κ) → Code H ι κ Unit
  | [] => return
  | o :: ops => do
    o.run
    runs ops

/-- Ends with everything undone. -/
def nested (n : Open ι κ) : List (Op ι κ) → Prop
  | [] => n = ⟨[], 0⟩
  | o :: ops => o.allowed n ∧ nested (o.next n) ops

end Op

/-- An interrupt, and what is done for it. -/
structure Irq (ι κ : Type) [DecidableEq ι] [DecidableEq κ] where
  ops : List (Op ι κ)
  nested : Op.nested ⟨[], 0⟩ ops
  timer : Bool

/-- The end of `kerneltrap`. -/
def preempt (timer : Bool) : Code H ι κ Unit :=
  .act () some fun w =>
    match w.cpu.proc with
    | none => .ret ()
    | some q => if timer = true ∧ (w.procs q).state = .running then yield q else .ret ()

/-- Interrupts are off when it begins, and on again when it has returned. -/
def kerneltrap (irq : Irq ι κ) : Code H ι κ Unit := do
  modify fun m => m.intr false
  Op.runs irq.ops
  preempt irq.timer
  modify fun m => m.intr true

/-- What a thread remembers between calls. A process that has changed its state is `leaving`, perhaps
for good. -/
structure Local (ι κ : Type) extends Open ι κ where
  leaving : Option Bool
  deriving DecidableEq

def Local.idle : Local ι κ := ⟨⟨[], 0⟩, none⟩

inductive Call (ι κ : Type)
  | op (o : Op ι κ)
  | intr (on : Bool)
  | leave (state : ProcState)
  | sched
  | scheduler

def Call.enabled : Thread H ι → Local ι κ → Call ι κ → Prop
  | .proc p, n, .op o => o.allowed n.toOpen ∧ (n.leaving = none ∨ o.keeps p)
  | .sched _, n, .op o => o.allowed n.toOpen
  | _, n, .intr _ => n.toOpen = ⟨[], 0⟩
  | .proc p, n, .leave state => n.leaving = none ∧ .proc p ∈ n.held ∧ state ≠ .running ∧ state ≠ .unused
  | .proc p, n, .sched => n.toOpen = ⟨[.proc p], 0⟩ ∧ n.leaving ≠ none
  | .sched _, n, .scheduler => n = .idle
  | _, _, _ => False

instance : ∀ (x : Thread H ι) (n : Local ι κ) (c : Call ι κ), Decidable (Call.enabled x n c)
  | .proc p, n, .op o => inferInstanceAs (Decidable (o.allowed n.toOpen ∧ (n.leaving = none ∨ o.keeps p)))
  | .sched _, n, .op o => inferInstanceAs (Decidable (o.allowed n.toOpen))
  | .proc _, n, .intr _ | .sched _, n, .intr _ => inferInstanceAs (Decidable (n.toOpen = ⟨[], 0⟩))
  | .proc p, n, .leave state =>
    inferInstanceAs (Decidable (n.leaving = none ∧ .proc p ∈ n.held ∧ state ≠ .running ∧ state ≠ .unused))
  | .proc p, n, .sched => inferInstanceAs (Decidable (n.toOpen = ⟨[.proc p], 0⟩ ∧ n.leaving ≠ none))
  | .sched _, n, .scheduler => inferInstanceAs (Decidable (n = .idle))
  | .sched _, _, .leave _ | .sched _, _, .sched | .proc _, _, .scheduler => isFalse id

def Call.body (table : List ι) (x : Thread H ι) (n : Local ι κ) : Call ι κ → Code H ι κ (Local ι κ)
  | .op o => do
    o.run
    return { n with toOpen := o.next n.toOpen }
  | .intr on => do
    modify fun m => m.intr on
    return n
  | .leave state =>
    match x with
    | .sched _ => return n
    | .proc p => do
      modify fun m => m.setProc p fun x => { x with state := state }
      return { n with leaving := some (state = .zombie) }
  | .sched =>
    match x with
    | .sched _ => return n
    | .proc p => do
      let fresh ← lift (Harts.sched p)
      if n.leaving = some true then
        if fresh = true then do
          forkret p
          return .idle
        else .stop (.panic "zombie exit")
      else resumed (return { n with leaving := none }) fresh
  | .scheduler => do
    Intr.scheduler table
    return n

def client (table : List ι) : HartClient Unit Stop (Traced H ι κ) H (Thread H ι) (Irq ι κ) (Local ι κ) (Call ι κ) where
  enabled := Call.enabled
  body := Call.body table
  turn h w := w.on fun m => { m with hart := h }
  runs x w := w.thread = x
  interruptible w := w.cpu.sie = true
  trap := kerneltrap

instance (table : List ι) (x : Thread H ι) (n : Local ι κ) (c : Call ι κ) : Decidable ((client table).enabled x n c) :=
  inferInstanceAs (Decidable (Call.enabled x n c))

instance (table : List ι) (x : Thread H ι) (w : Traced H ι κ) : Decidable ((client table).runs x w) :=
  inferInstanceAs (Decidable (w.exec w.hart = x))

/-- After booting on hart `h`: process `init` can run, and each hart is about to enter its scheduler. -/
def booted (init : ι) (h : H) : Config Unit Stop (Traced H ι κ) (Thread H ι) (Local ι κ) where
  shared := ⟨(Harts.booted init h).shared, []⟩
  thread
    | .sched _ => .ret .idle
    | .proc p => do
      born p
      return .idle

end Farron.Intr
