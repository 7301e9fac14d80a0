import Farron.Fat.Cache
import Farron.File.Table
import Farron.Memory.Pages
import Farron.Strings.Buffer

/-! What `fstat` and `readdir` copy out.

Both fill a local `struct stat` and copy it out whole, `readdir` from a local `struct dirent`
that `enext` fills in. There is one open file here, which any number of processes share; what
the locals have in them when a call starts is its `Frame`. A system call is a program on the
file system, the file and the memory of the processes. -/
namespace Farron.Stat
open Resumption Strings
open Files (FileType)
open Memory (u64)

/-- `struct file`: what the calls on it use. -/
structure File where
  type : FileType
  readable : Bool
  ep : Option Ptr
  off : Nat

/-- What `readdir` has done with the last record that it has found: nothing is left to do, `off` is
still to be moved behind it, or it is still to be copied out. -/
inductive Phase
  | idle
  | found
  | moved
  deriving DecidableEq

/-- What the locals of a call have in them at first: the bytes of `st`, and the fields of `de`. -/
structure Frame where
  st : Bytes
  de : Dirent
  dev : Byte

/-- What a `readdir` has copied out: for which process, from which locals, and the structure. -/
structure Returned where
  pid : Nat
  frame : Frame
  st : Bytes

/-- `ofile` says which descriptors of a process are the file; `sz` and `user` are the size of its
memory and the memory. `phase`, `returned` and `ended` are history, read by no function: what
each `readdir` has found, what was copied out, and whether a call has returned 0. -/
structure System where
  fs : State
  file : File
  ofile : Nat → Int → Bool
  sz : Nat → Nat
  user : Nat → Bytes
  phase : Nat → Phase
  returned : List Returned
  ended : Bool

/-- The sections that conditions on a run speak about. -/
inductive Mark
  | fs (l : Label)
  | plain
  /-- `dirnext` reads `f->off` for `enext`; `valid` is what is in `de.valid`. -/
  | scan (valid : Int)
  /-- `dirnext` is about to return 0. -/
  | ended

abbrev Sys := Prog Mark Stop System

def System.setFs (s : System) (fs : State) : System := { s with fs }

/-- A function of the file system. -/
def onFs {α : Type} (p : Fs α) : Sys α := (p.relabel Mark.fs).zoom System.fs System.setFs

theorem run_onFs {α : Type} (p : Fs α) (s : System) : (onFs p).run s = (p.run s.fs).within s.setFs := by
  have hget : ∀ t fs, System.fs (System.setFs t fs) = fs := fun _ _ => rfl
  have hself : ∀ t, System.setFs t t.fs = t := fun _ => rfl
  rw [onFs, Prog.run_zoom hget hself fun _ _ _ => rfl, Prog.run_relabel]

theorem run_onFs_dirent {e : Ptr} {s : System} : (onFs (dirent e)).run s = .done (s.fs.dirents e) s := by
  rw [run_onFs, run_dirent]
  rfl

def file : Sys File := .act .plain some fun s => .ret s.file

def setOff (off : Nat) : Sys Unit := .change .plain fun s => { s with file := { s.file with off } }

/-! ### `struct stat` -/

def statMaxName : Nat := 32

def tDir : Nat := 1
def tFile : Nat := 2

/-- `name` is at offset 0, then there are three bytes of padding, `dev`, `type`, six bytes of padding
and `size`. -/
def devAt : Nat := 36
def typeAt : Nat := 40
def sizeAt : Nat := 48
def statSz : Nat := 56

/-- `dev` of the dirent is separate: it is 0 in the cache. -/
def estat (d : Dirent) (dev : Byte) (st : Bytes) : Bytes :=
  let st := strncpy (fun o => d.filename.getD o 0) statMaxName 0 0 st
  let st := overwrite typeAt 2 (wordByte (if d.attr &&& attrDirectory ≠ 0 then tDir else tFile)) st
  let st := overwrite devAt 4 (wordByte dev.toNat) st
  overwrite sizeAt 8 (wordByte d.fileSize) st

/-! ### The calls -/

section Calls
variable (fat : Fat) (pid : Nat)

/-- The bytes are not all in the memory of the process. -/
def System.outside (s : System) (addr len : Nat) : Prop := u64 (addr + len) > s.sz pid ∨ addr ≥ s.sz pid

instance (s : System) (addr len : Nat) : Decidable (s.outside pid addr len) := inferInstanceAs (Decidable (_ ∨ _))

def System.copied (s : System) (addr : Nat) (src : Bytes) (len : Nat) : System :=
  { s with user := Function.update s.user pid (overwrite addr len src (s.user pid)) }

theorem System.copied_user (s : System) (addr : Nat) (src : Bytes) (len : Nat) :
    (s.copied pid addr src len).user pid = overwrite addr len src (s.user pid) := Function.update_self ..

def copyout2 (addr : Nat) (src : Bytes) (len : Nat) : Sys Int :=
  .act .plain (fun s => some (if s.outside pid addr len then s else s.copied pid addr src len)) fun s =>
    .ret (if s.outside pid addr len then -1 else 0)

/-- The descriptor is the file. -/
def System.isOpen (s : System) (fd : Int) : Bool := decide (0 ≤ fd ∧ fd < nofile) && s.ofile pid fd

def argfd (fd : Int) : Sys Bool := .act .plain some fun s => .ret (s.isOpen pid fd)

def filestat (frame : Frame) (addr : Nat) : Sys Int := do
  let f ← file
  if f.type = .entry then
    match f.ep with
    | none => .stop (.panic "elock")
    | some ep => do
      onFs (elock pid (some ep))
      let d ← onFs (dirent ep)
      let st := estat d 0 frame.st
      onFs (eunlock pid (some ep))
      let r ← copyout2 pid addr st statSz
      if r < 0 then return -1 else return 0
  else return -1

def sysFstat (frame : Frame) (fd : Int) (addr : Nat) : Sys Int := do
  if ← argfd pid fd then filestat pid frame addr else return -1

/-- `f->off += count * 32`. -/
def moveOff (count : Nat) : Sys Unit := do
  let f ← file
  setOff (u32 (f.off + recordSz * count))

def setPhase (p : Phase) : Sys Unit := .change .plain fun s => { s with phase := Function.update s.phase pid p }

/-- The loop of `dirnext` over gaps. -/
def dirnextLoop (ep : Ptr) (valid : Int) : Nat → Nat → Sys Next
  | 0, _ => .stop .spin
  | n + 1, count =>
    .act (.scan valid) some fun s => do
      let r ← onFs (enext fat ep valid s.file.off count)
      if r.type = 0 then do
        moveOff r.count
        dirnextLoop ep valid n r.count
      else return r

/-- The part of `dirnext` under the lock. -/
def dirnextFind (ep : Ptr) (valid : Int) : Sys Next := do
  onFs (elock pid (some ep))
  let r ← dirnextLoop fat ep valid (maxSlots + 1) 0
  setPhase pid (if r.type = -1 then .idle else .found)
  onFs (eunlock pid (some ep))
  return r

/-- `de`, with what `enext` has put there. -/
def Next.fill (r : Next) (de : Dirent) : Dirent :=
  match r.info with
  | some info => { de with filename := r.name, attr := info.attr, firstClus := info.firstClus, fileSize := info.fileSize }
  | none => { de with filename := r.name }

/-- What `dirnext` does with a record. -/
def dirnextCopy (frame : Frame) (addr : Nat) (r : Next) : Sys Int := do
  moveOff r.count
  setPhase pid .moved
  let st := estat (Next.fill r frame.de) frame.dev frame.st
  let x ← copyout2 pid addr st statSz
  if x < 0 then do
    setPhase pid .idle
    return -1
  else
    .change .plain fun s => { s with phase := Function.update s.phase pid .idle, returned := s.returned ++ [⟨pid, frame, st⟩] }
    return 1

def dirnext (frame : Frame) (addr : Nat) : Sys Int := do
  let f ← file
  if f.readable = false then return -1
  else match f.ep with
    | none => .stop (.fault "dirnext: f->ep")
    | some ep => do
      let d ← onFs (dirent ep)
      if d.attr &&& attrDirectory = 0 then return -1
      else do
        let r ← dirnextFind fat pid ep frame.de.valid
        if r.type = -1 then do
          .change .ended fun s => { s with ended := true }
          return 0
        else dirnextCopy pid frame addr r

def sysReaddir (frame : Frame) (fd : Int) (addr : Nat) : Sys Int := do
  if ← argfd pid fd then dirnext fat pid frame addr else return -1

end Calls
end Farron.Stat
