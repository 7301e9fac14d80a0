import Farron.Memory.Copies

/-! Processes and their memory, from `kernel/proc.c`.

Functions run one at a time: locks, the scheduler and the saved context of a process are left
out, and so is what a file or a dirent is (`ε` is a `struct dirent *`, and `φ` the state of
the file system). `proc` lists the slots of the process table in order; `p` is `myproc()`. -/
namespace Farron.Memory
open Resumption

/-- `struct proc`. `guard` is history, read by no function: the page number below the user
stack, from which `exec` has taken the user's access, as long as it is still there. -/
structure Proc (ι ε : Type) where
  state : ProcState
  parent : Option ι
  killed : Bool
  xstate : Int
  pid : Int
  sz : Nat
  pagetable : Option Page
  kpagetable : Option Page
  trapframe : Option Page
  ofile : Fin nofile → Option Nat
  cwd : Option ε
  name : List Byte
  guard : Option Nat

structure Sys (ι φ ε : Type) where
  ram : Ram
  procs : ι → Proc ι ε
  nextpid : Int
  fs : φ

abbrev Code (ι φ ε : Type) := Prog Label Stop (Sys ι φ ε)

variable {ι φ ε : Type} [DecidableEq ι]

/-- A function of `kalloc.c` or `vm.c`. -/
def vm {α : Type} (c : Vm α) : Code ι φ ε α := c.zoom Sys.ram fun s m => { s with ram := m }

def Sys.setProc (s : Sys ι φ ε) (p : ι) (f : Proc ι ε → Proc ι ε) : Sys ι φ ε :=
  { s with procs := Function.update s.procs p (f (s.procs p)) }

def modify (f : Sys ι φ ε → Sys ι φ ε) : Code ι φ ε Unit := .change .plain f

def setProc (p : ι) (f : Proc ι ε → Proc ι ε) : Code ι φ ε Unit := modify fun s => s.setProc p f

/-- A pointer that is not null. -/
def deref {α : Type} (what : String) : Option α → Code ι φ ε α
  | some a => return a
  | none => .stop (.fault what)

/-- Offsets in `struct trapframe`, and its size. -/
def tfEpc : Nat := 24
def tfSp : Nat := 48
def tfA0 : Nat := 112
def tfA1 : Nat := 120
def tfSize : Nat := 288

/-- An assignment to a 64-bit field. -/
def storeWord (p : Page) (o v : Nat) : Vm Unit := Prog.change .plain fun m => m.write p (putWord64 o v (m.byte p))

section Functions
variable (board : Board) (proc : List ι) (initproc p : ι)

def allocpid : Code ι φ ε Int :=
  .act .plain (fun s => some { s with nextpid := s.nextpid + 1 }) fun s => .ret s.nextpid

/-- `freeproc`'s first half, where each step depends on what the process has. -/
def freeMemory : Code ι φ ε Unit := do
  let s ← Prog.look .plain
  match (s.procs p).trapframe with
    | some tf => vm (kfree board tf)
    | none => pure ()
  setProc p fun x => { x with trapframe := none }
  match (s.procs p).kpagetable with
    | some kpagetable => vm (kvmfree board kpagetable true)
    | none => pure ()
  setProc p fun x => { x with kpagetable := none }
  match (s.procs p).pagetable with
    | some pagetable => vm (procFreepagetable board pagetable (s.procs p).sz)
    | none => pure ()

def Proc.freed (x : Proc ι ε) : Proc ι ε :=
  { x with
    pagetable := none, sz := 0, pid := 0, parent := none, name := [], killed := false, xstate := 0
    state := .unused, guard := none }

def freeproc : Code ι φ ε Unit := do
  freeMemory board p
  setProc p Proc.freed

/-- `allocproc` from `found` on. -/
def allocFound : Code ι φ ε (Option ι) := do
  let pid ← allocpid
  setProc p fun x => { x with pid }
  let trapframe ← vm (kalloc .trapframe)
  setProc p fun x => { x with trapframe }
  match trapframe with
  | none => return none
  | some tf => do
    let pagetable ← vm (procPagetable board tf)
    setProc p fun x => { x with pagetable }
    match pagetable with
    | none => do
      freeproc board p
      return none
    | some _ => do
      let kpagetable ← vm (procKpagetable board)
      setProc p fun x => { x with kpagetable }
      match kpagetable with
      | none => do
        freeproc board p
        return none
      | some _ => return some p

def allocproc : List ι → Code ι φ ε (Option ι)
  | [] => return none
  | j :: rest => do
    let s ← Prog.look .plain
    if (s.procs j).state = .unused then allocFound board j else allocproc rest

def initcode : List Byte := [
  0x17, 0x05, 0x00, 0x00, 0x13, 0x05, 0x45, 0x02,
  0x97, 0x05, 0x00, 0x00, 0x93, 0x85, 0x35, 0x02,
  0x93, 0x08, 0x70, 0x00, 0x73, 0x00, 0x00, 0x00,
  0x93, 0x08, 0x20, 0x00, 0x73, 0x00, 0x00, 0x00,
  0xef, 0xf0, 0x9f, 0xff, 0x2f, 0x69, 0x6e, 0x69,
  0x74, 0x00, 0x00, 0x24, 0x00, 0x00, 0x00, 0x00,
  0x00, 0x00, 0x00, 0x00]

/-- `"initcode"`. -/
def initname : List Byte := [0x69, 0x6e, 0x69, 0x74, 0x63, 0x6f, 0x64, 0x65]

/-- The process becomes `initproc`. -/
def userinit : Code ι φ ε Unit := do
  let p ← deref "userinit" (← allocproc board proc)
  let s ← Prog.look .plain
  let pagetable ← deref "userinit" (s.procs p).pagetable
  let kpagetable ← deref "userinit" (s.procs p).kpagetable
  let trapframe ← deref "userinit" (s.procs p).trapframe
  vm (uvminit pagetable kpagetable (fun i => initcode.getD i 0) initcode.length)
  setProc p fun x => { x with sz := pgsize }
  vm (storeWord trapframe tfEpc 0)
  vm (storeWord trapframe tfSp pgsize)
  setProc p fun x => { x with name := initname, state := .runnable }

/-- The page tables of the process. -/
def pagetables : Code ι φ ε (Page × Page) := do
  let s ← Prog.look .plain
  let pagetable ← deref "pagetable" (s.procs p).pagetable
  let kpagetable ← deref "kpagetable" (s.procs p).kpagetable
  return (pagetable, kpagetable)

/-- A process has the size `sz` from now on. -/
def Proc.resize (sz : Nat) (x : Proc ι ε) : Proc ι ε :=
  { x with sz, guard := x.guard.filter (· < npages sz) }

/-- `uint sz` and `int n`. -/
def growproc (n : Int) : Code ι φ ε Int := do
  let s ← Prog.look .plain
  let sz := u32 (s.procs p).sz
  let newsz := ((sz + n) % 2 ^ 32).toNat
  let (pagetable, kpagetable) ← pagetables p
  if n > 0 then
    let sz := u32 (← vm (uvmalloc board pagetable kpagetable sz newsz))
    if sz = 0 then return -1
    else do
      setProc p (Proc.resize sz)
      return 0
  else if n < 0 then
    let sz := u32 (← vm (uvmdealloc board pagetable kpagetable sz newsz))
    setProc p (Proc.resize sz)
    return 0
  else
    setProc p (Proc.resize sz)
    return 0

/-- The parent's part in what `fork` gives the child. -/
def Proc.inherit (x : Proc ι ε) (p : ι) (y : Proc ι ε) : Proc ι ε :=
  { y with sz := x.sz, parent := some p, ofile := x.ofile, cwd := x.cwd, name := x.name, state := .runnable, guard := x.guard }

def fork : Code ι φ ε Int := do
  match ← allocproc board proc with
  | none => return -1
  | some np => do
    let s ← Prog.look .plain
    let (pagetable, _) ← pagetables p
    let (npagetable, nkpagetable) ← pagetables np
    if (← vm (uvmcopy board pagetable npagetable nkpagetable (s.procs p).sz)) < 0 then
      freeproc board np
      return -1
    else do
      let trapframe ← deref "trapframe" (s.procs p).trapframe
      let ntrapframe ← deref "trapframe" (s.procs np).trapframe
      vm (Prog.change .plain fun m => m.write ntrapframe (overwrite 0 tfSize (m.byte trapframe) (m.byte ntrapframe)))
      vm (storeWord ntrapframe tfA0 0)
      setProc np ((s.procs p).inherit p)
      return (s.procs np).pid

/-- `reparent`, and the end of `exit`. -/
def Sys.orphan (s : Sys ι φ ε) : Sys ι φ ε :=
  { s with procs := fun q => if (s.procs q).parent = some p then { s.procs q with parent := some initproc } else s.procs q }

/-- `exit` up to `sched`. -/
def exit (status : Int) : Code ι φ ε Unit :=
  if p = initproc then .stop (.panic "init exiting")
  else do
    setProc p fun x => { x with ofile := fun _ => none, cwd := none }
    modify (Sys.orphan initproc p)
    setProc p fun x => { x with xstate := status, state := .zombie }

/-- An `int` in memory. -/
def intByte (n : Int) : Nat → Byte := wordByte (n % 2 ^ 32).toNat

/-- The scan of `wait`; it returns nothing where `wait` goes to sleep. -/
def waitScan (addr : Nat) : List ι → Bool → Code ι φ ε (Option Int)
  | [], havekids => do
    let s ← Prog.look .plain
    if havekids = false ∨ (s.procs p).killed = true then return some (-1) else return none
  | np :: rest, havekids => do
    let s ← Prog.look .plain
    if (s.procs np).parent = some p then
      if (s.procs np).state = .zombie then
        let (_, kpagetable) ← pagetables p
        let r ← if addr ≠ 0 then vm (copyout2 (s.procs p).sz kpagetable addr (intByte (s.procs np).xstate) 4) else pure 0
        if r < 0 then return some (-1)
        else do
          freeproc board np
          return some (s.procs np).pid
      else waitScan addr rest true
    else waitScan addr rest havekids

def wait (addr : Nat) : Code ι φ ε (Option Int) := waitScan board p addr proc false

end Functions

/-- At boot no process has any memory; `files` and `cwd` are whatever they are. -/
def boot (ram : Ram) (fs : φ) (name : List Byte) : Sys ι φ ε where
  ram
  procs _ := ⟨.unused, none, false, 0, 0, 0, none, none, none, fun _ => none, none, name, none⟩
  nextpid := 1
  fs

end Farron.Memory
