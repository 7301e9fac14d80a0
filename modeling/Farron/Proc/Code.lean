import Farron.Proc.Machine

/-! Processes and their scheduling, from `kernel/proc.c`.

Each function is the program of the kernel thread of a process `p`, which is then `myproc()`, or
of a scheduler. What is done between taking and releasing locks is one section where
no other thread looks at it in between; `p->parent` is read without a lock. A loop
that ends only when something happens has a bound, `rounds`. -/
namespace Farron.Harts
open Resumption
variable {H ι κ : Type} [DecidableEq H] [DecidableEq ι] [DecidableEq κ]

abbrev Code (H ι κ : Type) := Prog Unit Stop (Machine H ι κ)

/-! ### Spin locks -/

def acquire (l : Lock ι κ) : Code H ι κ Unit :=
  .act ()
    (fun m => if m.locks l = none then some (m.pushOff.setLock l (some m.hart))
      else if m.holding l then some m else none)
    fun m => if m.holding l then .stop (.panic "acquire") else .ret ()

def release (l : Lock ι κ) : Code H ι κ Unit :=
  .act () (fun m => some (if m.holding l then (m.setLock l none).popOff else m))
    fun m =>
      if ¬ m.holding l then .stop (.panic "release")
      else if m.cpu.sie = true then .stop (.panic "pop_off - interruptible")
      else if m.cpu.noff < 1 then .stop (.panic "pop_off")
      else .ret ()

/-- A section. -/
def modify (f : Machine H ι κ → Machine H ι κ) : Code H ι κ Unit := .change () f

/-! ### Switching -/

/-- Switch to the scheduler. On return it says whether the context that runs is the first of a
new process. -/
def sched (p : ι) : Code H ι κ Bool :=
  .act ()
    (fun m => some (if m.holding (.proc p) ∧ m.cpu.noff = 1 ∧ (m.procs p).state ≠ .running ∧ m.cpu.sie = false
      then m.toSched p else m))
    fun m =>
      if ¬ m.holding (.proc p) then .stop (.panic "sched p->lock")
      else if m.cpu.noff ≠ 1 then .stop (.panic "sched locks")
      else if (m.procs p).state = .running then .stop (.panic "sched running")
      else if m.cpu.sie = true then .stop (.panic "sched interruptible")
      else
        -- from here on again on some hart: `mycpu()->intena = intena`
        .act () (fun m' => some (if m'.fresh p = true then m' else m'.setCpu fun c => { c with intena := m.cpu.intena }))
          fun m' => .ret (m'.fresh p)

/-- The rest of a function that has called `sched`: a context is restored once. -/
def resumed {σ α : Type} (k : Prog Unit Stop σ α) (fresh : Bool) : Prog Unit Stop σ α :=
  if fresh = true then .stop (.fault "context") else k

def yield (p : ι) : Code H ι κ Unit := do
  acquire (.proc p)
  modify fun m => m.setProc p fun x => { x with state := .runnable }
  let fresh ← sched p
  resumed (release (.proc p)) fresh

/-- Release `lk`, unless it is `p->lock`, and sleep on `chan`; reacquires it. -/
def sleep (p : ι) (chan : Chan ι κ) (lk : Lock ι κ) : Code H ι κ Unit :=
  if lk = .proc p then do
    modify fun m => m.setProc p fun x => { x with chan := some chan, state := .sleeping }
    let fresh ← sched p
    resumed (modify fun m => m.setProc p fun x => { x with chan := none }) fresh
  else do
    acquire (.proc p)
    release lk
    modify fun m => m.setProc p fun x => { x with chan := some chan, state := .sleeping }
    let fresh ← sched p
    resumed (do
      modify fun m => m.setProc p fun x => { x with chan := none }
      release (.proc p)
      acquire lk) fresh

/-- The body of the loop of `wakeup`, and of `wakeup1`. -/
def Proc.wake (chan : Chan ι κ) (x : Proc ι κ) : Proc ι κ :=
  if x.state = .sleeping ∧ x.chan = some chan then { x with state := .runnable } else x

def wakeup (chan : Chan ι κ) : List ι → Code H ι κ Unit
  | [] => return
  | q :: rest => do
    acquire (.proc q)
    modify fun m => m.setProc q (Proc.wake chan)
    release (.proc q)
    wakeup chan rest

def wakeup1 (q : ι) : Code H ι κ Unit :=
  .act () (fun m => some (if m.holding (.proc q) then m.setProc q (Proc.wake (.proc q)) else m))
    fun m => if m.holding (.proc q) then .ret () else .stop (.panic "wakeup1")

/-- What `kill` does to the process it finds. -/
def Proc.kill (x : Proc ι κ) : Proc ι κ :=
  { x with killed := true, state := if x.state = .sleeping then .runnable else x.state }

def kill (pid : Int) : List ι → Code H ι κ Int
  | [] => return -1
  | q :: rest => do
    acquire (.proc q)
    .act () (fun m => some (if (m.procs q).pid = pid then m.setProc q Proc.kill else m))
      fun m =>
        if (m.procs q).pid = pid then do
          release (.proc q)
          return 0
        else do
          release (.proc q)
          kill pid rest

/-! ### The rest of the kernel -/

/-- What other kernel code does with locks and channels. -/
inductive Op (κ : Type)
  | lock (k : κ)
  | unlock (k : κ)
  | sleep (chan k : κ)
  | wakeup (chan : κ)

/-- Code that holds the locks `held` sleeps only with the lock it passes, and ends with none. -/
def Op.disciplined : List κ → List (Op κ) → Prop
  | held, [] => held = []
  | held, .lock k :: ops => disciplined (k :: held) ops
  | held, .unlock k :: ops => disciplined (held.erase k) ops
  | held, .sleep _ k :: ops => held = [k] ∧ disciplined held ops
  | held, .wakeup _ :: ops => disciplined held ops

instance Op.decidableDisciplined : ∀ (held : List κ) (ops : List (Op κ)), Decidable (Op.disciplined held ops)
  | held, [] => inferInstanceAs (Decidable (held = []))
  | held, .lock k :: ops => decidableDisciplined (k :: held) ops
  | held, .unlock k :: ops => decidableDisciplined (held.erase k) ops
  | held, .sleep _ k :: ops =>
    haveI := decidableDisciplined held ops
    inferInstanceAs (Decidable (held = [k] ∧ _))
  | held, .wakeup _ :: ops => decidableDisciplined held ops

section Procs
variable (table : List ι) (init : ι) (rounds : Nat) (p : ι)

def Op.run : List (Op κ) → Code H ι κ Unit
  | [] => return
  | .lock k :: ops => do
    acquire (.other k)
    run ops
  | .unlock k :: ops => do
    release (.other k)
    run ops
  | .sleep c k :: ops => do
    Harts.sleep p (.other c) (.other k)
    run ops
  | .wakeup c :: ops => do
    Harts.wakeup (.other c) table
    run ops

/-! ### Creating processes -/

/-- Where the allocations for a new process fail: at the trapframe, at a page table, in `uvmcopy`. -/
inductive Failure
  | trapframe
  | tables
  | copy
  deriving DecidableEq

def allocpid : Code H ι κ Int := do
  acquire .pid
  let m ← .look ()
  modify fun m => { m with nextpid := m.nextpid + 1 }
  release .pid
  return m.nextpid

variable [Fintype H]

/-- The part of `allocproc` from `found` on. -/
def allocate (fail : Option Failure) (q : ι) : Code H ι κ (Option ι) := do
  let pid ← allocpid
  modify fun m => m.setProc q fun x => { x with pid }
  match fail with
  | some .trapframe =>
    release (.proc q)
    return none
  | some .tables =>
    modify fun m => m.freeproc p q
    release (.proc q)
    return none
  | _ =>
    modify fun m => { m with fresh := Function.update m.fresh q true }
    return some q

def allocproc (fail : Option Failure) : List ι → Code H ι κ (Option ι)
  | [] => return none
  | q :: rest => do
    acquire (.proc q)
    let m ← .look ()
    if (m.procs q).state = .unused then allocate p fail q
    else
      release (.proc q)
      allocproc fail rest

def fork (fail : Option Failure) : Code H ι κ Int := do
  match ← allocproc p fail table with
  | none => return -1
  | some q =>
    if fail = some .copy then
      modify fun m => m.freeproc p q
      release (.proc q)
      return -1
    else
      modify fun m => m.setProc q fun x => { x with parent := some p }
      let m ← .look ()
      modify fun m => m.setProc q fun x => { x with state := .runnable }
      release (.proc q)
      return (m.procs q).pid

/-- `usertrapret`: back to user mode, where interrupts are on. -/
def usertrapret : Code H ι κ Unit := modify fun m => m.intr true

def forkret : Code H ι κ Unit := do
  release (.proc p)
  usertrapret

/-! ### Ending processes -/

def reparent : List ι → Code H ι κ Unit
  | [] => return
  | q :: rest => do
    let m ← .look ()
    if (m.procs q).parent = some p then
      acquire (.proc q)
      modify fun m => m.setProc q fun x => { x with parent := some init }
      release (.proc q)
      reparent rest
    else reparent rest

/-- Wake up the parent and become a zombie; both locks are held. -/
def die (parent : ι) (status : Int) : Code H ι κ Unit :=
  .act ()
    (fun m => some (if m.holding (.proc parent) then
        { (m.setProc parent (Proc.wake (.proc parent))).setProc p fun x => { x with xstate := status, state := .zombie } with
          exits := ⟨p, (m.procs p).pid, status⟩ :: m.exits }
      else m))
    fun m => if m.holding (.proc parent) then .ret () else .stop (.panic "wakeup1")

/-- `exit`; closing the files is `ops`. The kernel thread goes on when the slot has a new
process. -/
def exit (ops : List (Op κ)) (status : Int) : Code H ι κ Unit :=
  if p = init then .stop (.panic "init exiting")
  else do
    Op.run table p ops
    acquire (.proc init)
    wakeup1 init
    release (.proc init)
    acquire (.proc p)
    let m ← .look ()
    release (.proc p)
    match (m.procs p).parent with
    | none => .stop (.fault "original_parent")
    | some parent =>
      acquire (.proc parent)
      acquire (.proc p)
      reparent init p table
      die p parent status
      release (.proc parent)
      let fresh ← sched p
      if fresh = true then forkret p else .stop (.panic "zombie exit")

/-- The address that `wait` gets: null, or one to which the status can, or cannot, be
copied. -/
inductive Dest
  | null
  | good
  | bad
  deriving DecidableEq

/-- What `wait` returned, and the status that it delivered. -/
structure Waited where
  dest : Dest
  ret : Int
  status : Option Int
  deriving DecidableEq

/-- One scan through the table: the result of `wait` if it ends here, or else whether there are
children. -/
def waitScan (dest : Dest) : List ι → Bool → Code H ι κ (Waited ⊕ Bool)
  | [], havekids => return .inr havekids
  | q :: rest, havekids => do
    let m ← .look ()
    if (m.procs q).parent = some p then
      acquire (.proc q)
      .act () (fun m => some (if (m.procs q).state = .zombie ∧ dest ≠ .bad then m.freeproc p q else m))
        fun m =>
          if (m.procs q).state = .zombie then do
            release (.proc q)
            release (.proc p)
            return .inl (if dest = .bad then ⟨dest, -1, none⟩
              else ⟨dest, (m.procs q).pid, if dest = .null then none else some (m.procs q).xstate⟩)
          else do
            release (.proc q)
            waitScan dest rest true
    else waitScan dest rest havekids

def waitLoop (dest : Dest) : Nat → Code H ι κ Waited
  | 0 => .stop .spin
  | n + 1 => do
    match ← waitScan p dest table false with
    | .inl r => return r
    | .inr havekids =>
      let m ← .look ()
      if havekids = false ∨ (m.procs p).killed = true then
        release (.proc p)
        return ⟨dest, -1, none⟩
      else
        Harts.sleep p (.proc p) (.proc p)
        waitLoop dest n

def wait (dest : Dest) : Code H ι κ Waited := do
  acquire (.proc p)
  waitLoop table p dest rounds

/-! ### The scheduler and interrupts -/

/-- The loop of `scheduler` over the table. -/
def schedule : List ι → Code H ι κ Unit
  | [] => return
  | q :: rest => do
    acquire (.proc q)
    .act ()
      (fun m => some (if (m.procs q).state = .runnable then
          (m.setProc q fun x => { x with state := .running }).setCpu fun c => { c with proc := some q }
        else m))
      fun m =>
        if (m.procs q).state = .runnable then do
          modify fun m => m.setExec (.proc q)
          -- the process has switched back
          modify fun m => m.setCpu fun c => { c with proc := none }
          release (.proc q)
          schedule rest
        else do
          release (.proc q)
          schedule rest

/-- One round of `scheduler`. -/
def scheduler : Code H ι κ Unit := do
  modify fun m => m.intr true
  schedule table

inductive Irq (κ : Type)
  | timer
  | device (chan : κ)

/-- `kerneltrap`; a device wakes up who waits for it. Interrupts are off meanwhile. -/
def kerneltrap : Irq κ → Code H ι κ Unit
  | .timer =>
    .act () (fun m => some (m.intr false)) fun m =>
      match m.cpu.proc with
      | none => modify fun m => m.intr true
      | some q =>
        if (m.procs q).state = .running then do
          yield q
          modify fun m => m.intr true
        else modify fun m => m.intr true
  | .device c => do
    modify fun m => m.intr false
    wakeup (.other c) table
    modify fun m => m.intr true

end Procs

/-! ### The threads -/

inductive Call (κ : Type)
  | scheduler
  | yield
  | kernel (ops : List (Op κ))
  | kill (pid : Int)
  | fork (fail : Option Failure)
  | wait (dest : Dest)
  | exit (ops : List (Op κ)) (status : Int)

def Call.enabled : Thread H ι → Call κ → Prop
  | .sched _, .scheduler => True
  | .sched _, _ => False
  | .proc _, .scheduler => False
  | .proc _, .kernel ops | .proc _, .exit ops _ => Op.disciplined [] ops
  | .proc _, _ => True

instance : ∀ (x : Thread H ι) (c : Call κ), Decidable (Call.enabled x c)
  | .sched _, .scheduler => isTrue trivial
  | .sched _, .yield | .sched _, .kernel _ | .sched _, .kill _ | .sched _, .fork _ | .sched _, .wait _
  | .sched _, .exit _ _ => isFalse id
  | .proc _, .scheduler => isFalse id
  | .proc _, .kernel ops | .proc _, .exit ops _ => inferInstanceAs (Decidable (Op.disciplined [] ops))
  | .proc _, .yield | .proc _, .kill _ | .proc _, .fork _ | .proc _, .wait _ => isTrue trivial

/-- A system call, from user mode and back. -/
def syscall {α : Type} (k : Code H ι κ α) : Code H ι κ α := do
  modify fun m => m.intr true
  let a ← k
  usertrapret
  return a

/-- The kernel thread of a slot that has never been used. -/
def born (p : ι) : Code H ι κ Unit :=
  .act () some fun m => if m.fresh p = true then forkret p else .stop (.fault "context")

/-- What a thread remembers between calls, newest first: what its calls of `wait` returned. -/
abbrev Local := List Waited

variable [Fintype H]

def Call.body (table : List ι) (init : ι) (rounds : Nat) (x : Thread H ι) (l : Local) (c : Call κ) :
    Code H ι κ Local :=
  match x with
  | .sched _ => do
    Harts.scheduler table
    return l
  | .proc p =>
    match c with
    | .scheduler => return l
    | .yield => do
      Harts.yield p
      return l
    | .kernel ops => syscall do
      Op.run table p ops
      return l
    | .kill pid => syscall do
      let _ ← Harts.kill pid table
      return l
    | .fork fail => syscall do
      let _ ← Harts.fork table p fail
      return l
    | .wait dest => syscall do
      let r ← Harts.wait table rounds p dest
      return r :: l
    | .exit ops status => do
      modify fun m => m.intr true
      Harts.exit table init p ops status
      return l

def client (table : List ι) (init : ι) (rounds : Nat) :
    HartClient Unit Stop (Machine H ι κ) H (Thread H ι) (Irq κ) Local (Call κ) where
  enabled x _ c := Call.enabled x c
  body := Call.body table init rounds
  turn h m := { m with hart := h }
  runs x m := m.exec m.hart = x
  interruptible m := m.cpu.sie = true
  trap := kerneltrap table

instance (table : List ι) (init : ι) (rounds : Nat) (x : Thread H ι) (l : Local) (c : Call κ) :
    Decidable ((client table init rounds).enabled x l c) := inferInstanceAs (Decidable (Call.enabled x c))

instance (table : List ι) (init : ι) (rounds : Nat) (x : Thread H ι) (m : Machine H ι κ) :
    Decidable ((client table init rounds).runs x m) := inferInstanceAs (Decidable (m.exec m.hart = x))

/-- After booting on hart `h`: `userinit` has made the process `init`, and each hart is about to enter
its scheduler. -/
def booted (init : ι) (h : H) : Config Unit Stop (Machine H ι κ) (Thread H ι) Local where
  shared :=
    { hart := h
      procs := fun p =>
        { state := if p = init then .runnable else .unused
          parent := none
          chan := none
          killed := false
          xstate := 0
          pid := if p = init then 1 else 0 }
      locks := fun _ => none
      cpus := fun _ => { proc := none, noff := 0, intena := false, sie := false }
      exec := fun h => .sched h
      fresh := fun p => decide (p = init)
      nextpid := 2
      exits := []
      frees := [] }
  thread
    | .sched _ => .ret []
    | .proc p => do
      born p
      return []

end Farron.Harts
