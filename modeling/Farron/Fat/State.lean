import Farron.Fat.Layout
import Farron.Kernel.Stop
import Farron.Resumption.Program
import Mathlib.Data.Fintype.Basic

/-! What the file-system code shares: the disk and the entry cache.

`bread`, a change of the data, `bwrite` and `brelse` make one section on a sector,
and so does each access to a dirent; sections under `ecache.lock` are written
where they occur. There is one device, so `dev` is left out. -/
namespace Farron
open Resumption

/-- A slot of `ecache.entries`. -/
abbrev Slot := Fin entryCacheNum

instance : NeZero entryCacheNum := ⟨by decide⟩

/-- A `struct dirent *` that is not null. -/
inductive Ptr
  | root
  | entry (slot : Slot)
  deriving DecidableEq

/-- `filename` is the C string in the array of that name, without its NUL; `attr` is
the field `attribute`. -/
structure Dirent where
  filename : List Byte
  attr : Byte
  firstClus : Nat
  fileSize : Nat
  curClus : Nat
  clusCnt : Nat
  dirty : Bool
  valid : Int
  ref : Int
  off : Nat
  parent : Option Ptr
  /-- The pid that holds the sleep lock. -/
  lock : Option Nat
  deriving DecidableEq

def Dirent.zero : Dirent := ⟨[], 0, 0, 0, 0, 0, false, 0, 0, 0, none, none⟩

/-- `lru` lists the slots from `root.next` to `root.prev`. `retired` is history, read by
no function: the first clusters of the files whose slots have been made new files. -/
structure State where
  disk : Disk
  dirents : Ptr → Dirent
  lru : List Slot
  retired : List Nat := []

/-- The sections that conditions on a run speak about. -/
inductive Label
  | plain
  /-- `reloc_clus`, walking forward, reads the FAT entry of `cluster`. -/
  | relocRead (cluster : Nat)
  /-- `alloc_clus` searches sector `i` of the FAT. -/
  | allocScan (i : Nat)

abbrev Fs := Prog Label Stop State

def panic {α : Type} (msg : String) : Fs α := .stop (.panic msg)
def fault {α : Type} (what : String) : Fs α := .stop (.fault what)
def spin {α : Type} : Fs α := .stop .spin

namespace State

def setDirent (s : State) (e : Ptr) (f : Dirent → Dirent) : State :=
  { s with dirents := Function.update s.dirents e (f (s.dirents e)) }

def setSector (s : State) (sec : Nat) (f : Sector → Sector) : State :=
  { s with disk := Function.update s.disk sec (f (s.disk sec)) }

/-- The file that starts at this cluster has lost its slot. -/
def retire (s : State) (clus : Nat) : State := { s with retired := s.retired ++ [clus] }

variable (s : State) (e e' : Ptr) (f : Dirent → Dirent) (sec : Nat) (g : Sector → Sector)

@[simp] theorem setDirent_disk : (s.setDirent e f).disk = s.disk := rfl
@[simp] theorem setDirent_lru : (s.setDirent e f).lru = s.lru := rfl
@[simp] theorem setDirent_same : (s.setDirent e f).dirents e = f (s.dirents e) :=
  Function.update_self ..
theorem setDirent_ne (h : e' ≠ e) : (s.setDirent e f).dirents e' = s.dirents e' :=
  Function.update_of_ne h ..
@[simp] theorem setSector_dirents : (s.setSector sec g).dirents = s.dirents := rfl
@[simp] theorem setSector_lru : (s.setSector sec g).lru = s.lru := rfl
@[simp] theorem setSector_same : (s.setSector sec g).disk sec = g (s.disk sec) :=
  Function.update_self ..
theorem setSector_ne {sec' : Nat} (h : sec' ≠ sec) : (s.setSector sec g).disk sec' = s.disk sec' :=
  Function.update_of_ne h ..

end State

/-! ### Sections -/

/-- The dirent as it is now. -/
def dirent (e : Ptr) : Fs Dirent := .act .plain some fun s => .ret (s.dirents e)

/-- An assignment to fields of a dirent. -/
def assign (e : Ptr) (f : Dirent → Dirent) : Fs Unit := .change .plain fun s => s.setDirent e f

/-- An assignment to a slot that has been another file's. -/
def recycle (e : Ptr) (f : Dirent → Dirent) : Fs Unit :=
  .change .plain fun s => (s.setDirent e f).retire (s.dirents e).firstClus

/-- `bread`, a look at the data, `brelse`. -/
def breadAt (l : Label) (sec : Nat) : Fs Sector := .act l some fun s => .ret (s.disk sec)

def bread (sec : Nat) : Fs Sector := breadAt .plain sec

/-- `bread`, a change of the data, `bwrite`, `brelse`. -/
def bwrite (sec : Nat) (f : Sector → Sector) : Fs Unit := .change .plain fun s => s.setSector sec f

section Run
variable (e : Ptr) (f : Dirent → Dirent) (l : Label) (sec : Nat) (g : Sector → Sector) (s : State)

@[simp] theorem run_dirent : (dirent e).run s = .done (s.dirents e) s := rfl
@[simp] theorem run_assign : (assign e f).run s = .done () (s.setDirent e f) := rfl
@[simp] theorem run_breadAt : (breadAt l sec).run s = .done (s.disk sec) s := rfl
@[simp] theorem run_bread : (bread sec).run s = .done (s.disk sec) s := rfl
@[simp] theorem run_bwrite : (bwrite sec g).run s = .done () (s.setSector sec g) := rfl
@[simp] theorem run_panic {α : Type} (msg : String) :
    (panic msg : Fs α).run s = .stopped (.panic msg) := rfl
@[simp] theorem run_fault {α : Type} (what : String) :
    (fault what : Fs α).run s = .stopped (.fault what) := rfl
@[simp] theorem run_spin {α : Type} : (spin : Fs α).run s = .stopped .spin := rfl

end Run
end Farron
