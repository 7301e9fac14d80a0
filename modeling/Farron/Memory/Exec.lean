import Farron.Memory.Procs
import Farron.Fat.FileArrays
import Farron.Fat.Names

/-! `exec`, from `kernel/exec.c` and `libs/elf.h`.

Of the file system only the file that the path leads to is here, as the array of its bytes
(`eread`). The arguments are C strings; they are in pages of their own, which nothing here
writes. `execBuild` makes the new image up to the point where it is committed. -/
namespace Farron.Memory
open Resumption

/-- `MAXARG`. -/
def maxarg : Nat := 32

def elfMagic : Nat := 0x464C457F
def elfProgLoad : Nat := 1

/-- `sizeof(struct elfhdr)` and `sizeof(struct proghdr)`. -/
def elfhdrSz : Nat := 64
def proghdrSz : Nat := 56

/-- A `ushort` of a record. -/
def word16 (b : Bytes) (o : Nat) : Nat := (b o).toNat + 256 * (b (o + 1)).toNat

/-- `struct elfhdr`: what `exec` uses. -/
structure Elfhdr where
  magic : Nat
  entry : Nat
  phoff : Nat
  phnum : Nat

def Elfhdr.of (b : Bytes) : Elfhdr := ⟨word32 b 0, word64 b 24, word64 b 32, word16 b 56⟩

/-- `struct proghdr`: what `exec` uses. -/
structure Proghdr where
  type : Nat
  off : Nat
  vaddr : Nat
  filesz : Nat
  memsz : Nat

def Proghdr.of (b : Bytes) : Proghdr := ⟨word32 b 0, word64 b 8, word64 b 16, word64 b 32, word64 b 40⟩

/-- The bytes of a file. -/
abbrev Contents := List Byte

/-- The bytes that `eread` delivers from a regular file; it returns how many they are. -/
def eread (file : Contents) (off n : Nat) : List Byte :=
  if off > file.length ∨ u32 (off + n) < off then []
  else
    let n := if u32 (off + n) > file.length then file.length - off else n
    (file.drop off).take n

/-- A buffer that bytes were read into. -/
def bytesOf (l : List Byte) : Bytes := fun i => l.getD i 0

/-! ### Segments -/

/-- `i` is the index of the next byte. -/
def loadLoop (pagetable : Page) (va : Nat) (file : Contents) (offset sz : Nat) : Nat → Nat → Vm Int
  | 0, _ => .stop .spin
  | rounds + 1, i =>
    if i < sz then do
      match ← walkaddr pagetable (u64 (va + i)) with
      | none => panic "loadseg: address should exist"
      | some pa => do
        let n := if sz - i < pgsize then sz - i else pgsize
        let data := eread file (u32 (offset + i)) n
        store pa 0 data.length (bytesOf data)
        if data.length ≠ n then return -1
        else loadLoop pagetable va file offset sz rounds (u32 (i + pgsize))
    else return 0

/-- `offset` and `sz` are `uint`s. -/
def loadseg (pagetable : Page) (va : Nat) (file : Contents) (offset sz : Nat) : Vm Int :=
  if va % pgsize ≠ 0 then panic "loadseg: va must be page aligned"
  else loadLoop pagetable va file offset sz (sz / pgsize + 2) 0

section Board
variable (board : Board)

/-- The loop over the program headers; `off` is an `int`, passed as a `uint`. Whether it goes on to the
end, and `sz`. -/
def loadAll (pagetable kpagetable : Page) (file : Contents) : Nat → Nat → Nat → Vm (Bool × Nat)
  | 0, _, sz => return (true, sz)
  | phnum + 1, off, sz => do
    let data := eread file off proghdrSz
    if data.length ≠ proghdrSz then return (false, sz)
    else
      let ph := Proghdr.of (bytesOf data)
      if ph.type ≠ elfProgLoad then loadAll pagetable kpagetable file phnum (u32 (off + proghdrSz)) sz
      else if ph.memsz < ph.filesz then return (false, sz)
      else if u64 (ph.vaddr + ph.memsz) < ph.vaddr then return (false, sz)
      else do
        let sz1 ← uvmalloc board pagetable kpagetable sz (u64 (ph.vaddr + ph.memsz))
        if sz1 = 0 then return (false, sz)
        else if ph.vaddr % pgsize ≠ 0 then return (false, sz1)
        else if (← loadseg pagetable ph.vaddr file (u32 ph.off) (u32 ph.filesz)) < 0 then return (false, sz1)
        else loadAll pagetable kpagetable file phnum (u32 (off + proghdrSz)) sz1

/-! ### The user stack -/

/-- A subtraction of `uint64`s. -/
def sub64 (a b : Nat) : Nat := u64 (a + 2 ^ 64 - b)

/-- Room is made on the stack for bytes, which are copied there; `sp` stays a multiple of 16. -/
def push (pagetable : Page) (stackbase sp : Nat) (src : Bytes) (len : Nat) : Vm (Option Nat) := do
  let sp := sub64 sp len
  let sp := sp - sp % 16
  if sp < stackbase then return none
  else if (← copyout pagetable sp src len) < 0 then return none
  else return some sp

/-- The loop over the arguments; `argc` is the length of `ustack`. -/
def pushArgs (pagetable : Page) (stackbase : Nat) : List CString → Nat → List Nat → Vm (Option (Nat × List Nat))
  | [], sp, ustack => return some (sp, ustack)
  | s :: rest, sp, ustack =>
    if ustack.length ≥ maxarg then return none
    else do
      match ← push pagetable stackbase sp (bytesOf s) (s.length + 1) with
      | none => return none
      | some sp => pushArgs pagetable stackbase rest sp (ustack ++ [sp])

/-- The bytes of an array of 64-bit words. -/
def wordsOf (ws : List Nat) : Bytes := fun i => wordByte (ws.getD (i / 8) 0) (i % 8)

/-- `sp` and `argc`. -/
def pushStack (pagetable : Page) (stackbase sp : Nat) (argv : List CString) : Vm (Option (Nat × Nat)) := do
  match ← pushArgs pagetable stackbase argv sp [] with
  | none => return none
  | some (sp, ustack) => do
    match ← push pagetable stackbase sp (wordsOf (ustack ++ [0])) ((ustack.length + 1) * 8) with
    | none => return none
    | some sp => return some (sp, ustack.length)

/-! ### The image -/

/-- What `exec` has made when it commits. -/
structure Built where
  pagetable : Page
  kpagetable : Page
  sz : Nat
  sp : Nat
  argc : Nat
  entry : Nat

/-- `for (int i = 0; i < PX(2, MAXUVA); i++) kpagetable[i] = 0`. -/
def clearEntries (kpagetable : Page) : List (Fin 512) → Vm Unit
  | [] => return
  | i :: is => do
    storePte (kpagetable, i) 0
    clearEntries kpagetable is

/-- `bad`, but for the dirent. -/
def execBad (pagetable : Option Page) (kpagetable : Page) (sz : Nat) : Vm (Option Built) := do
  (match pagetable with
    | some pagetable => procFreepagetable board pagetable sz
    | none => pure ())
  kvmfree board kpagetable false
  return none

/-- From the stack on. -/
def execStack (pagetable kpagetable : Page) (entry sz : Nat) (argv : List CString) : Vm (Option Built) := do
  let sz := pgroundup sz
  let sz1 ← uvmalloc board pagetable kpagetable sz (u64 (sz + 2 * pgsize))
  if sz1 = 0 then execBad board (some pagetable) kpagetable sz
  else do
    uvmclear pagetable (sz1 - 2 * pgsize)
    match ← pushStack pagetable (sz1 - pgsize) sz1 argv with
    | none => execBad board (some pagetable) kpagetable sz1
    | some (sp, argc) => return some ⟨pagetable, kpagetable, sz1, sp, argc, entry⟩

/-- From the file on. -/
def execLoad (tf kpagetable : Page) (file : Contents) (argv : List CString) : Vm (Option Built) := do
  let data := eread file 0 elfhdrSz
  if data.length ≠ elfhdrSz then execBad board none kpagetable 0
  else
    let elf := Elfhdr.of (bytesOf data)
    if elf.magic ≠ elfMagic then execBad board none kpagetable 0
    else do
      match ← procPagetable board tf with
      | none => execBad board none kpagetable 0
      | some pagetable => do
        let (loaded, sz) ← loadAll board pagetable kpagetable file elf.phnum (u32 elf.phoff) 0
        if loaded then execStack board pagetable kpagetable elf.entry sz argv
        else execBad board (some pagetable) kpagetable sz

/-- `exec` until it commits; `oldk` is `p->kpagetable`, `file` what the path leads to. -/
def execBuild (oldk tf : Page) (file : Option Contents) (argv : List CString) : Vm (Option Built) := do
  match ← kalloc .table with
  | none => return none
  | some kpagetable => do
    movePage kpagetable oldk
    clearEntries kpagetable (indices.take (px maxuva 2))
    match file with
    | none => execBad board none kpagetable 0
    | some file => execLoad board tf kpagetable file argv

/-! ### The process -/

variable {ι φ ε : Type} [DecidableEq ι] (p : ι)

/-- The part of a path behind its last slash. -/
def lastPiece (path : CString) : CString := (path.reverse.takeWhile (· ≠ 0x2f)).reverse

/-- `sizeof(p->name)`. -/
def nameSz : Nat := 16

/-- The process is what was built. -/
def commit (tf : Page) (path : CString) (b : Built) : Code ι φ ε Unit := do
  vm (storeWord tf tfA1 b.sp)
  setProc p fun x => { x with name := (lastPiece path).take (nameSz - 1) }
  setProc p fun x => { x with
    pagetable := some b.pagetable, kpagetable := some b.kpagetable, sz := b.sz, guard := some (b.sz / pgsize - 2) }
  vm (storeWord tf tfEpc b.entry)
  vm (storeWord tf tfSp b.sp)

def exec (path : CString) (file : Option Contents) (argv : List CString) : Code ι φ ε Int := do
  let s ← Prog.look .plain
  let (pagetable, kpagetable) ← pagetables p
  let tf ← deref "trapframe" (s.procs p).trapframe
  match ← vm (execBuild board kpagetable tf file argv) with
  | none => return -1
  | some b => do
    commit p tf path b
    vm (procFreepagetable board pagetable (s.procs p).sz)
    vm (kvmfree board kpagetable false)
    return b.argc

end Board
end Farron.Memory
