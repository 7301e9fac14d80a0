import Farron.Kernel.Common
import Farron.Kernel.Stop
import Farron.Resumption.Interleave

/-! Open files, from `kernel/file.c`, and the system calls that make and drop references.

What is done under `ftable.lock`, or under the lock of a pipe, is one section, and so is each
change of a descriptor. Of the file system only what a lookup has found is here (`Found`),
of the memory of processes only whether there was enough, and of the pages of the kernel
which are pipes. A process of the table makes calls while it is alive. -/
namespace Farron.Files
open Resumption

/-- `NFILE`. -/
def nfile : Nat := 100

/-- `NDEV`. -/
def ndev : Nat := 10

abbrev Page := Nat

/-- A dirent of the cache. -/
abbrev Entry := Nat

inductive FileType
  | none
  | pipe
  | entry
  | device
  deriving DecidableEq

/-- `struct file`. -/
structure File where
  type : FileType
  ref : Nat
  readable : Bool
  writable : Bool
  pipe : Option Page
  ep : Option Entry
  off : Nat
  major : Int

/-- What a page is used for. -/
inductive Use
  | free
  | pipe
  | other
  deriving DecidableEq

/-- `readopen` and `writeopen` of a pipe. -/
structure Ends where
  readopen : Bool
  writeopen : Bool

def Ends.isOpen (e : Ends) (writable : Bool) : Bool := if writable then e.writeopen else e.readopen

def Ends.shut (e : Ends) (writable : Bool) : Ends :=
  if writable then { e with writeopen := false } else { e with readopen := false }

inductive Life
  | unused
  | alive
  | zombie
  deriving DecidableEq

abbrev Fd := Fin nofile

/-- `ofile` of a process. -/
abbrev Table := Fd → Option (Fin nfile)

/-- `plock` is the `p->lock` that a `fork` keeps while it makes a child. -/
structure World (ι : Type) where
  ftable : Fin nfile → File
  ofile : ι → Table
  life : ι → Life
  plock : ι → Option ι
  use : Page → Use
  ends : Page → Ends

variable {ι : Type} [DecidableEq ι]

abbrev Code (ι : Type) := Prog Unit Stop (World ι)

namespace World
variable (s : World ι)

def setFile (f : Fin nfile) (x : File) : World ι := { s with ftable := Function.update s.ftable f x }

def setRef (f : Fin nfile) (n : Nat) : World ι := s.setFile f { s.ftable f with ref := n }

/-- The first file without references. -/
def freeFile : Option (Fin nfile) := (List.finRange nfile).find? fun f => (s.ftable f).ref = 0

def filealloc : World ι :=
  match s.freeFile with
  | some f => s.setRef f 1
  | none => s

/-- `f->ref++`, past the check that there is a reference. -/
def filedup (f : Fin nfile) : World ι := if (s.ftable f).ref < 1 then s else s.setRef f ((s.ftable f).ref + 1)

/-- What `fileclose` does under the lock. -/
def drop (f : Fin nfile) : World ι :=
  if (s.ftable f).ref < 1 then s
  else if (s.ftable f).ref - 1 > 0 then s.setRef f ((s.ftable f).ref - 1)
  else s.setFile f { s.ftable f with ref := 0, type := .none }

/-- What `pipeclose` does under the lock. -/
def shut (pg : Page) (writable : Bool) : World ι :=
  { s with ends := Function.update s.ends pg ((s.ends pg).shut writable) }

def setUse (pg : Page) (u : Use) : World ι := { s with use := Function.update s.use pg u }

def setFd (p : ι) (fd : Fd) (f : Option (Fin nfile)) : World ι :=
  { s with ofile := Function.update s.ofile p (Function.update (s.ofile p) fd f) }

/-- The first free descriptor. -/
def freeFd (p : ι) : Option Fd := (List.finRange nofile).find? fun fd => s.ofile p fd = none

def fdalloc (p : ι) (f : Fin nfile) : World ι :=
  match s.freeFd p with
  | some fd => s.setFd p fd (some f)
  | none => s

/-- A page is taken from the free ones, if this one is; the pipe in it and its two files are
filled in. -/
def pipeinit (pick : Page) (f₀ f₁ : Fin nfile) : World ι :=
  if s.use pick = .free then
    let s := { s.setUse pick .pipe with ends := Function.update s.ends pick ⟨true, true⟩ }
    let s := s.setFile f₀ { s.ftable f₀ with type := .pipe, readable := true, writable := false, pipe := some pick }
    s.setFile f₁ { s.ftable f₁ with type := .pipe, readable := false, writable := true, pipe := some pick }
  else s

def setLife (p : ι) (l : Life) : World ι := { s with life := Function.update s.life p l }

def setLock (p : ι) (o : Option ι) : World ι := { s with plock := Function.update s.plock p o }

end World

/-! ### `file.c` and `pipe.c` -/

def filealloc : Code ι (Option (Fin nfile)) := .act () (fun s => some s.filealloc) fun s => .ret s.freeFile

def filedup (f : Fin nfile) : Code ι Unit :=
  .act () (fun s => some (s.filedup f)) fun s =>
    if (s.ftable f).ref < 1 then .stop (.panic "filedup") else .ret ()

def kfree (pg : Page) : Code ι Unit :=
  .act () (fun s => some (s.setUse pg .free)) fun s =>
    if s.use pg = .pipe then .ret () else .stop (.fault "kfree: not a pipe")

def pipeclose (pg : Page) (writable : Bool) : Code ι Unit :=
  .act () (fun s => some (s.shut pg writable)) fun s =>
    let e := (s.ends pg).shut writable
    if e.readopen = false ∧ e.writeopen = false then kfree pg else .ret ()

/-- What `fileclose` does once the last reference has gone. Of a dirent `eput` gives up the
reference. -/
def closeLast (ff : File) : Code ι Unit :=
  if ff.type = .pipe then
    match ff.pipe with
    | some pg => pipeclose pg ff.writable
    | none => .stop (.fault "pipeclose: no pipe")
  else .ret ()

def fileclose (f : Fin nfile) : Code ι Unit :=
  .act () (fun s => some (s.drop f)) fun s =>
    if (s.ftable f).ref < 1 then .stop (.panic "fileclose")
    else if (s.ftable f).ref - 1 > 0 then .ret ()
    else closeLast (s.ftable f)

def closeBoth (f₀ f₁ : Fin nfile) : Code ι Unit := do
  fileclose f₀
  fileclose f₁

/-- `pick` is the page that `kalloc` finds, if it finds one. -/
def pipealloc (pick : Option Page) : Code ι (Option (Fin nfile × Fin nfile)) := do
  match ← filealloc with
  | none => return none
  | some f₀ => match ← filealloc with
    | none => do
      fileclose f₀
      return none
    | some f₁ => match pick with
      | none => do
        closeBoth f₀ f₁
        return none
      | some pg =>
        .act () (fun s => some (s.pipeinit pg f₀ f₁)) fun s =>
          if s.use pg = .free then .ret (some (f₀, f₁)) else closeBoth f₀ f₁ >>= fun _ => .ret none

/-! ### `sysfile.c` -/

variable (p : ι)

/-- A process runs only while it is alive. -/
def enter : Code ι Unit := .act () (fun s => if s.life p = .alive then some s else none) fun _ => .ret ()

def argfd (fd : Int) : Code ι (Option (Fd × Fin nfile)) :=
  if h : 0 ≤ fd ∧ fd < nofile then
    .act () some fun s => .ret ((s.ofile p ⟨fd.toNat, by omega⟩).map fun f => (⟨fd.toNat, by omega⟩, f))
  else return none

def fdalloc (f : Fin nfile) : Code ι (Option Fd) := .act () (fun s => some (s.fdalloc p f)) fun s => .ret (s.freeFd p)

def setFd (fd : Fd) (f : Option (Fin nfile)) : Code ι Unit := .change () fun s => s.setFd p fd f

def sysDup (fd : Int) : Code ι Unit := do
  enter p
  match ← argfd p fd with
  | none => return
  | some (_, f) => match ← fdalloc p f with
    | none => return
    | some _ => filedup f

def sysClose (fd : Int) : Code ι Unit := do
  enter p
  match ← argfd p fd with
  | none => return
  | some (fd, f) => do
    setFd p fd none
    fileclose f

def oWronly : Nat := 0x001
def oRdwr : Nat := 0x002
def oAppend : Nat := 0x004
def oCreate : Nat := 0x200

/-- A dirent that a path leads to. -/
structure Found where
  ep : Entry
  directory : Bool
  size : Nat

/-- The flags of a file that is opened. -/
def File.opened (x : File) (omode : Nat) : File :=
  { x with
    readable := omode &&& oWronly = 0
    writable := omode &&& oWronly ≠ 0 ∨ omode &&& oRdwr ≠ 0 }

/-- A file is filled in. -/
def fill (f : Fin nfile) (x : File → File) : Code ι Unit := .change () fun s => s.setFile f (x (s.ftable f))

/-- `found` is what `create` or `ename` returns. -/
def sysOpen (omode : Nat) (found : Option Found) : Code ι Unit := do
  enter p
  match found with
  | none => return
  | some x =>
    if omode &&& oCreate = 0 ∧ x.directory ∧ omode ≠ 0 then return
    else match ← filealloc with
      | none => return
      | some f => match ← fdalloc p f with
        | none => fileclose f
        | some _ =>
          fill f fun y => { y.opened omode with
            type := .entry, off := if omode &&& oAppend ≠ 0 then x.size else 0, ep := some x.ep }

def sysDev (omode : Nat) (major : Int) : Code ι Unit := do
  enter p
  if omode &&& oCreate ≠ 0 then .stop (.panic "dev file on FAT")
  else if major < 0 ∨ ndev ≤ major then return
  else match ← filealloc with
    | none => return
    | some f => match ← fdalloc p f with
      | none => fileclose f
      | some _ => fill f fun y => { y.opened omode with type := .device, off := 0, ep := none, major }

/-- `copied`: the descriptors could be copied out. -/
def sysPipe (pick : Option Page) (copied : Bool) : Code ι Unit := do
  enter p
  match ← pipealloc pick with
  | none => return
  | some (rf, wf) => match ← fdalloc p rf with
    | none => closeBoth rf wf
    | some fd₀ => match ← fdalloc p wf with
      | none => do
        setFd p fd₀ none
        closeBoth rf wf
      | some fd₁ =>
        if copied then return
        else do
          setFd p fd₀ none
          setFd p fd₁ none
          closeBoth rf wf

/-! ### `proc.c` -/

/-- The scan of `allocproc`: the first UNUSED process stays locked. -/
def allocproc : List ι → Code ι (Option ι)
  | [] => return none
  | j :: rest =>
    .act () (fun s => if s.plock j = none then some (if s.life j = .unused then s.setLock j (some p) else s) else none)
      fun s => if s.life j = .unused then .ret (some j) else allocproc rest

/-- The loop of `fork` over the descriptors. -/
def dupAll (j : ι) : List Fd → Code ι Unit
  | [] => return
  | fd :: rest =>
    .act () some fun s =>
      match s.ofile p fd with
      | none => dupAll j rest
      | some f => do
        filedup f
        setFd j fd (some f)
        dupAll j rest

/-- `enough`: there was enough memory for the child. -/
def fork (proc : List ι) (enough : Bool) : Code ι Unit := do
  enter p
  match ← allocproc p proc with
  | none => return
  | some j =>
    if enough then do
      dupAll p j (List.finRange nofile)
      .change () fun s => (s.setLife j .alive).setLock j none
    else .change () fun s => (s.setLife j .unused).setLock j none

/-- The loop of `exit` over the descriptors. -/
def closeAll : List Fd → Code ι Unit
  | [] => return
  | fd :: rest =>
    .act () some fun s =>
      match s.ofile p fd with
      | none => closeAll rest
      | some f => do
        fileclose f
        setFd p fd none
        closeAll rest

def exit (initproc : ι) : Code ι Unit := do
  enter p
  if p = initproc then .stop (.panic "init exiting")
  else do
    closeAll p (List.finRange nofile)
    .change () fun s => s.setLife p .zombie

/-- `wait` finds `j`, whoever its parent is. -/
def wait (j : ι) : Code ι Unit := do
  enter p
  .change () fun s => if s.life j = .zombie then s.setLife j .unused else s

/-- The rest of the kernel takes a page or gives it back. -/
def page (pg : Page) : Code ι Unit := do
  enter p
  .change () fun s => match s.use pg with
    | .free => s.setUse pg .other
    | .other => s.setUse pg .free
    | .pipe => s

/-! ### The processes -/

inductive Call (ι : Type)
  | dup (fd : Int)
  | close (fd : Int)
  | open (omode : Nat) (found : Option Found)
  | dev (omode : Nat) (major : Int)
  | pipe (pick : Option Page) (copied : Bool)
  | fork (enough : Bool)
  | exit
  | wait (j : ι)
  | page (pg : Page)

def Call.body (proc : List ι) (initproc : ι) : Call ι → Code ι Unit
  | .dup fd => sysDup p fd
  | .close fd => sysClose p fd
  | .open omode found => sysOpen p omode found
  | .dev omode major => sysDev p omode major
  | .pipe pick copied => sysPipe p pick copied
  | .fork enough => Files.fork p proc enough
  | .exit => Files.exit p initproc
  | .wait j => Files.wait p j
  | .page pg => Files.page p pg

def client (proc : List ι) (initproc : ι) : Client Unit Stop (World ι) ι Unit (Call ι) where
  enabled _ _ := True
  body p _ c := c.body p proc initproc
  pass _ _ _ _ := False

/-- `memset(f, 0, sizeof(struct file))`. -/
def File.zero : File := ⟨.none, 0, false, false, none, none, 0, 0⟩

/-- The first process has no file open; no page is a pipe. -/
def start (initproc : ι) (use : Page → Bool) (ends : Page → Ends) : Config Unit Stop (World ι) ι Unit where
  shared := {
    ftable := fun _ => File.zero
    ofile := fun _ _ => none
    life := fun p => if p = initproc then .alive else .unused
    plock := fun _ => none
    use := fun pg => if use pg then .other else .free
    ends }
  thread _ := .ret ()

end Farron.Files
