import Farron.File.Counted
import Farron.Memory.Pages

/-! What `sys_pipe` leaves behind, from `kernel/sysfile.c`, `pipe.c` and `file.c`.

One call runs here while the others wait. Beside the open files are the free list, which the
page of the pipe comes from and goes back to, and the memory of the processes, which the
descriptors are copied to. `eput` stands for what `fileclose` does with a dirent. -/
namespace Farron.Files
open Resumption
open Memory (u64)

/-- `nread` and `nwrite` are those of the pipe in a page; `sz` and `user` are the size of the memory of
a process and the memory. -/
structure Kern (ι : Type) where
  files : World ι
  freelist : List Page
  nread : Page → Nat
  nwrite : Page → Nat
  sz : ι → Nat
  user : ι → Nat → Byte

abbrev KernCode (ι : Type) := Prog Unit Stop (Kern ι)

variable {ι : Type}

namespace Kern

def setFiles (k : Kern ι) (files : World ι) : Kern ι := { k with files }

/-- A page is on the free list no longer. -/
def pop (k : Kern ι) : Kern ι :=
  match k.freelist with
  | [] => k
  | pg :: rest => { k with files := k.files.setUse pg .other, freelist := rest }

def push (k : Kern ι) (pg : Page) : Kern ι :=
  { k with files := k.files.setUse pg .free, freelist := pg :: k.freelist }

/-- The fields of the pipe in a page. -/
def setPipe (k : Kern ι) (pg : Page) : Kern ι where
  files := { k.files.setUse pg .pipe with ends := Function.update k.files.ends pg ⟨true, true⟩ }
  freelist := k.freelist
  nread := Function.update k.nread pg 0
  nwrite := Function.update k.nwrite pg 0
  sz := k.sz
  user := k.user

/-- The fields of a file that is an end of the pipe in a page. -/
def setEnd (k : Kern ι) (f : FileNo) (pg : Page) (writable : Bool) : Kern ι :=
  k.setFiles (k.files.setFile f { k.files.ftable f with type := .pipe, readable := !writable, writable, pipe := some pg })

/-- The bytes are not all in the memory of the process. -/
def outside (k : Kern ι) (p : ι) (addr len : Nat) : Prop := u64 (addr + len) > k.sz p ∨ addr ≥ k.sz p

instance (k : Kern ι) (p : ι) (addr len : Nat) : Decidable (k.outside p addr len) := inferInstanceAs (Decidable (_ ∨ _))

def copied [DecidableEq ι] (k : Kern ι) (p : ι) (addr len : Nat) (src : Nat → Byte) : Kern ι :=
  { k with user := Function.update k.user p (overwrite addr len src (k.user p)) }

/-! ### The source -/

/-- A function of the open files. -/
def onFiles {α : Type} (c : Code ι α) : KernCode ι α := c.zoom Kern.files setFiles

def kalloc : KernCode ι (Option Page) := .act () (fun k => some k.pop) fun k => .ret k.freelist.head?

/-- A page that is free is not given back again. -/
def kfree (pg : Page) : KernCode ι Unit :=
  .act () (fun k => some (k.push pg)) fun k =>
    if k.files.use pg = .free then .stop (.fault "kfree: the page is free") else .ret ()

def copyout2 [DecidableEq ι] (p : ι) (dstva : Nat) (src : Nat → Byte) (len : Nat) : KernCode ι Int :=
  .act () (fun k => some (if k.outside p dstva len then k else k.copied p dstva len src)) fun k =>
    .ret (if k.outside p dstva len then -1 else 0)

def pipeclose (pg : Page) (writable : Bool) : KernCode ι Unit :=
  .act () (fun k => some (k.setFiles (k.files.shut pg writable))) fun k =>
    let e := (k.files.ends pg).shut writable
    if e.readopen = false ∧ e.writeopen = false then kfree pg else .ret ()

/-- A step for a pointer that is not null. -/
def given {α : Type} (c : α → KernCode ι Unit) : Option α → KernCode ι Unit
  | none => .ret ()
  | some a => c a

section Eput
variable (eput : Option Entry → KernCode ι Unit)

/-- What `fileclose` does once the last reference has gone. -/
def closeLast (ff : File) : KernCode ι Unit :=
  match ff.type with
  | .pipe => match ff.pipe with
    | some pg => pipeclose pg ff.writable
    | none => .stop (.fault "pipeclose: no pipe")
  | .entry => eput ff.ep
  | .device => .ret ()
  | .none => .ret ()

def fileclose (f : FileNo) : KernCode ι Unit :=
  .act () (fun k => some (k.setFiles (k.files.drop f))) fun k =>
    if (k.files.ftable f).ref < 1 then .stop (.panic "fileclose")
    else if (k.files.ftable f).ref - 1 > 0 then .ret ()
    else closeLast eput (k.files.ftable f)

/-- The end of `pipealloc` at `bad`. -/
def bad (pi : Option Page) (f₀ f₁ : Option FileNo) : KernCode ι (Option (FileNo × FileNo)) := do
  given kfree pi
  given (fileclose eput) f₀
  given (fileclose eput) f₁
  return none

def pipealloc : KernCode ι (Option (FileNo × FileNo)) := do
  match ← onFiles filealloc with
  | none => bad eput none none none
  | some f₀ => match ← onFiles filealloc with
    | none => bad eput none (some f₀) none
    | some f₁ => match ← kalloc with
      | none => bad eput none (some f₀) (some f₁)
      | some pi => do
        .change () fun k => k.setPipe pi
        .change () fun k => k.setEnd f₀ pi false
        .change () fun k => k.setEnd f₁ pi true
        return some (f₀, f₁)

/-- The last steps of a call that fails: the descriptors that were given are free again and the
files are closed. -/
def undo [DecidableEq ι] (p : ι) (fd₀ fd₁ : Option Fd) (rf wf : FileNo) : KernCode ι Int := do
  given (fun fd => onFiles (setFd p fd none)) fd₀
  given (fun fd => onFiles (setFd p fd none)) fd₁
  fileclose eput rf
  fileclose eput wf
  return -1

/-- `sizeof(fd0)`. -/
def intSz : Nat := 4

/-- The end of `sys_pipe`: the numbers of the descriptors are copied out. -/
def storeFds [DecidableEq ι] (p : ι) (fdarray : Nat) (fd₀ fd₁ : Fd) (rf wf : FileNo) : KernCode ι Int := do
  if (← copyout2 p fdarray (wordByte fd₀) intSz) < 0 then undo eput p (some fd₀) (some fd₁) rf wf
  else if (← copyout2 p (u64 (fdarray + intSz)) (wordByte fd₁) intSz) < 0 then undo eput p (some fd₀) (some fd₁) rf wf
  else return 0

/-- `sys_pipe` once there is a pipe: its ends are given descriptors. -/
def giveFds [DecidableEq ι] (p : ι) (fdarray : Nat) (rf wf : FileNo) : KernCode ι Int := do
  match ← onFiles (fdalloc p rf) with
  | none => undo eput p none none rf wf
  | some fd₀ => match ← onFiles (fdalloc p wf) with
    | none => undo eput p (some fd₀) none rf wf
    | some fd₁ => storeFds eput p fdarray fd₀ fd₁ rf wf

def sysPipe [DecidableEq ι] (p : ι) (fdarray : Nat) : KernCode ι Int := do
  match ← pipealloc eput with
  | none => return -1
  | some (rf, wf) => giveFds eput p fdarray rf wf

end Eput


end Kern

/-! ### Files of the table -/

namespace World
variable {s : World ι} {f g : FileNo}

theorem setFile_setFile (x y : File) : (s.setFile f x).setFile f y = s.setFile f y := by
  simp only [setFile, Function.update_idem]

theorem setFile_comm (h : f ≠ g) (x y : File) : (s.setFile f x).setFile g y = (s.setFile g y).setFile f x := by
  simp only [setFile, Function.update_comm h]

theorem setFile_self : s.setFile f (s.ftable f) = s := by
  simp only [setFile, Function.update_eq_self]

@[simp] theorem ftable_setFile (x : File) : (s.setFile f x).ftable f = x := Function.update_self ..

theorem ftable_setFile_ne (h : g ≠ f) (x : File) : (s.setFile f x).ftable g = s.ftable g := Function.update_of_ne h ..

theorem filealloc_of_none (h : s.freeFile = none) : s.filealloc = s := by rw [filealloc, h]

theorem filealloc_of_some (h : s.freeFile = some f) : s.filealloc = s.setRef f 1 := by rw [filealloc, h]

theorem freeFile_ref (h : s.freeFile = some f) : (s.ftable f).ref = 0 := by simpa using List.find?_some h

theorem freeFile_none (h : s.freeFile = none) (f : FileNo) : (s.ftable f).ref ≠ 0 := by
  simpa using List.find?_eq_none.mp h f (List.mem_finRange f)

/-- The last reference is dropped. -/
theorem drop_last (h : (s.ftable f).ref = 1) : s.drop f = s.setFile f { s.ftable f with ref := 0, type := .none } := by
  rw [drop, if_neg (by omega), if_neg (by omega)]

/-- A file without references is taken and given back. -/
theorem setRef_drop (hr : (s.ftable f).ref = 0) (ht : (s.ftable f).type = .none) : (s.setRef f 1).drop f = s := by
  have hf : (s.setRef f 1).ftable f = { s.ftable f with ref := 1 } := ftable_setFile _
  have hsame : ({ s.ftable f with ref := 0, type := .none } : File) = s.ftable f := by
    rw [← hr, ← ht]
  rw [drop_last (by rw [hf]), hf, setRef, setFile_setFile]
  show s.setFile f { s.ftable f with ref := 0, type := .none } = s
  rw [hsame, setFile_self]

theorem setRef_comm (h : f ≠ g) (m n : Nat) : (s.setRef f m).setRef g n = (s.setRef g n).setRef f m := by
  have hg : (s.setRef f m).ftable g = s.ftable g := ftable_setFile_ne h.symm _
  have hf : (s.setRef g n).ftable f = s.ftable f := ftable_setFile_ne h _
  have hleft : (s.setRef f m).setRef g n = (s.setFile f { s.ftable f with ref := m }).setFile g { s.ftable g with ref := n } := by
    show (s.setRef f m).setFile g { (s.setRef f m).ftable g with ref := n } = _
    rw [hg]
    rfl
  have hright : (s.setRef g n).setRef f m = (s.setFile g { s.ftable g with ref := n }).setFile f { s.ftable f with ref := m } := by
    show (s.setRef g n).setFile f { (s.setRef g n).ftable f with ref := m } = _
    rw [hf]
    rfl
  rw [hleft, hright]
  exact setFile_comm h _ _

end World

/-! ### One call alone -/

namespace Kern
variable {eput : Option Entry → KernCode ι Unit} {k : Kern ι} {p : ι} {f f₀ f₁ : FileNo} {pg : Page}

theorem run_onFiles {α : Type} {c : Code ι α} {a : α} {s : World ι} (h : c.run k.files = .done a s) :
    (onFiles c).run k = .done a (k.setFiles s) := by
  have hget : ∀ (k : Kern ι) s, (k.setFiles s).files = s := fun _ _ => rfl
  have hself : ∀ k : Kern ι, k.setFiles k.files = k := fun _ => rfl
  rw [onFiles, Prog.run_zoom hget hself fun _ _ _ => rfl, h]
  rfl

/-- The last reference to a file that is not filled in. -/
theorem run_fileclose_none (hr : (k.files.ftable f).ref = 1) (ht : (k.files.ftable f).type = .none) :
    (fileclose eput f).run k = .done () (k.setFiles (k.files.drop f)) := by
  rw [fileclose, Prog.run_act_some, if_neg (by omega), if_neg (by omega), closeLast, ht]
  rfl

/-- The last reference to an end of a pipe. -/
theorem run_fileclose_pipe (hr : (k.files.ftable f).ref = 1) (ht : (k.files.ftable f).type = .pipe)
    (hp : (k.files.ftable f).pipe = some pg) :
    (fileclose eput f).run k = (pipeclose pg (k.files.ftable f).writable).run (k.setFiles (k.files.drop f)) := by
  rw [fileclose, Prog.run_act_some, if_neg (by omega), if_neg (by omega), closeLast, ht]
  simp only [hp]

theorem run_pipeclose_first (h : k.files.ends pg = ⟨true, true⟩) (writable : Bool) :
    (pipeclose pg writable).run k = .done () (k.setFiles (k.files.shut pg writable)) := by
  rw [pipeclose, Prog.run_act_some, h]
  cases writable <;> rfl

theorem run_pipeclose_last {writable : Bool} (h : k.files.ends pg = Ends.shut ⟨true, true⟩ !writable) (hu : k.files.use pg ≠ .free) :
    (pipeclose pg writable).run k = .done () ((k.setFiles (k.files.shut pg writable)).push pg) := by
  have hkfree : (kfree pg : KernCode ι Unit).run (k.setFiles (k.files.shut pg writable)) =
      .done () ((k.setFiles (k.files.shut pg writable)).push pg) := by
    rw [kfree, Prog.run_act_some]
    exact congrArg (fun c : KernCode ι Unit => c.run _) (if_neg hu)
  rw [pipeclose, Prog.run_act_some, h]
  cases writable
  · exact hkfree
  · exact hkfree

/-- What a file without references becomes as an end of a pipe. -/
def asEnd (x : File) (pg : Page) (writable : Bool) : File :=
  { x with ref := 1, type := .pipe, readable := !writable, writable, pipe := some pg }

/-- Two files are the ends of the pipe in a page, which nothing else refers to. -/
structure Made (k : Kern ι) (f₀ f₁ : FileNo) (pg : Page) (x₀ x₁ : File) : Prop where
  ne : f₀ ≠ f₁
  read : k.files.ftable f₀ = asEnd x₀ pg false
  write : k.files.ftable f₁ = asEnd x₁ pg true
  ends : k.files.ends pg = ⟨true, true⟩
  use : k.files.use pg = .pipe

namespace Made
variable {x₀ x₁ : File}

/-- The end is closed. -/
def closeEnd (w : World ι) (f : FileNo) (x : File) (pg : Page) (writable : Bool) : World ι :=
  (w.setFile f { asEnd x pg writable with ref := 0, type := .none }).shut pg writable

/-- Both ends are closed, and the page is given back. -/
def closeEnds (k : Kern ι) (f₀ f₁ : FileNo) (x₀ x₁ : File) (pg : Page) : Kern ι :=
  (k.setFiles (closeEnd (closeEnd k.files f₀ x₀ pg false) f₁ x₁ pg true)).push pg

theorem closeEnds_ftable (k : Kern ι) (x₀ x₁ : File) (pg : Page) : (closeEnds k f₀ f₁ x₀ x₁ pg).files.ftable =
    Function.update (Function.update k.files.ftable f₀ { asEnd x₀ pg false with ref := 0, type := .none }) f₁
      { asEnd x₁ pg true with ref := 0, type := .none } := rfl

theorem run_first (h : Made k f₀ f₁ pg x₀ x₁) :
    (fileclose eput f₀).run k = .done () (k.setFiles (closeEnd k.files f₀ x₀ pg false)) := by
  have hdrop : k.files.drop f₀ = k.files.setFile f₀ { asEnd x₀ pg false with ref := 0, type := .none } := by
    rw [World.drop_last (by rw [h.read]; rfl), h.read]
  have hpipe : (k.files.ftable f₀).pipe = some pg := by
    rw [h.read]
    rfl
  rw [run_fileclose_pipe (by rw [h.read]; rfl) (by rw [h.read]; rfl) hpipe, h.read, hdrop]
  refine run_pipeclose_first ?_ false
  exact h.ends

theorem run_second (h : Made k f₀ f₁ pg x₀ x₁) :
    (fileclose eput f₁).run (k.setFiles (closeEnd k.files f₀ x₀ pg false)) = .done () (closeEnds k f₀ f₁ x₀ x₁ pg) := by
  obtain ⟨k₁, hk₁⟩ : ∃ k₁, k.setFiles (closeEnd k.files f₀ x₀ pg false) = k₁ := ⟨_, rfl⟩
  have hwrite : k₁.files.ftable f₁ = asEnd x₁ pg true := by
    rw [← hk₁, ← h.write]
    exact World.ftable_setFile_ne h.ne.symm _
  have hends : k₁.files.ends pg = Ends.shut ⟨true, true⟩ false := by
    rw [← hk₁, ← h.ends]
    exact Function.update_self ..
  have huse : k₁.files.use pg ≠ .free := by
    rw [← hk₁]
    show k.files.use pg ≠ .free
    rw [h.use]
    exact fun he => by cases he
  have hdrop : k₁.files.drop f₁ = k₁.files.setFile f₁ { asEnd x₁ pg true with ref := 0, type := .none } := by
    rw [World.drop_last (by rw [hwrite]; rfl), hwrite]
  have hpipe : (k₁.files.ftable f₁).pipe = some pg := by
    rw [hwrite]
    rfl
  rw [closeEnds, hk₁, run_fileclose_pipe (by rw [hwrite]; rfl) (by rw [hwrite]; rfl) hpipe, hwrite, hdrop]
  rw [← hk₁] at hends huse ⊢
  refine run_pipeclose_last ?_ ?_
  · exact hends
  · exact huse

end Made

/-- The descriptor of a call that fails is free again. -/
def clearFd [DecidableEq ι] (k : Kern ι) (p : ι) : Option Fd → Kern ι
  | none => k
  | some fd => k.setFiles (k.files.setFd p fd none)

/-- The descriptor is the file. -/
def giveFd [DecidableEq ι] (k : Kern ι) (p : ι) (fd : Fd) (f : FileNo) : Kern ι := k.setFiles (k.files.setFd p fd (some f))

theorem Made.giveFd [DecidableEq ι] {x₀ x₁ : File} (h : Made k f₀ f₁ pg x₀ x₁) (fd : Fd) (f : FileNo) :
    Made (k.giveFd p fd f) f₀ f₁ pg x₀ x₁ := ⟨h.ne, h.read, h.write, h.ends, h.use⟩

theorem Made.clearFd [DecidableEq ι] {x₀ x₁ : File} (h : Made k f₀ f₁ pg x₀ x₁) (o : Option Fd) :
    Made (k.clearFd p o) f₀ f₁ pg x₀ x₁ := by
  cases o with
  | none => exact h
  | some fd => exact ⟨h.ne, h.read, h.write, h.ends, h.use⟩

theorem run_clearFd [DecidableEq ι] (o : Option Fd) :
    (given (fun fd => onFiles (setFd p fd none)) o).run k = .done () (k.clearFd p o) := by
  cases o with
  | none => rfl
  | some fd => exact run_onFiles rfl

theorem Made.run_undo [DecidableEq ι] {x₀ x₁ : File} (h : Made k f₀ f₁ pg x₀ x₁) (o₀ o₁ : Option Fd) :
    (undo eput p o₀ o₁ f₀ f₁).run k = .done (-1) (closeEnds ((k.clearFd p o₀).clearFd p o₁) f₀ f₁ x₀ x₁ pg) := by
  have hmade := (h.clearFd (p := p) o₀).clearFd (p := p) o₁
  rw [undo, Prog.run_bind_done (run_clearFd o₀), Prog.run_bind_done (run_clearFd o₁), Prog.run_bind_done hmade.run_first,
    Prog.run_bind_done hmade.run_second]
  rfl

/-! ### `pipealloc` -/

/-- The state after `pipealloc`. -/
def made (k : Kern ι) (f₀ f₁ : FileNo) (pg : Page) (rest : List Page) : Kern ι where
  files := {
    k.files with
    ftable := Function.update (Function.update k.files.ftable f₀ (asEnd (k.files.ftable f₀) pg false)) f₁
      (asEnd (k.files.ftable f₁) pg true)
    use := Function.update k.files.use pg .pipe
    ends := Function.update k.files.ends pg ⟨true, true⟩ }
  freelist := rest
  nread := Function.update k.nread pg 0
  nwrite := Function.update k.nwrite pg 0
  sz := k.sz
  user := k.user

theorem made_made (k : Kern ι) (h : f₀ ≠ f₁) (pg : Page) (rest : List Page) :
    Made (k.made f₀ f₁ pg rest) f₀ f₁ pg (k.files.ftable f₀) (k.files.ftable f₁) where
  ne := h
  read := by
    show Function.update (Function.update k.files.ftable f₀ _) f₁ _ f₀ = _
    rw [Function.update_of_ne h, Function.update_self]
  write := Function.update_self ..
  ends := Function.update_self ..
  use := Function.update_self ..

/-- Before `pipealloc` files without references are not filled in, and the free list has the pages that are
free. -/
structure Sound (k : Kern ι) : Prop where
  closed : ∀ f, (k.files.ftable f).ref = 0 → (k.files.ftable f).type = .none
  pipe : ∀ f, (k.files.ftable f).type = .pipe → ∃ pg, (k.files.ftable f).pipe = some pg ∧ k.files.use pg = .pipe
  nodup : k.freelist.Nodup
  free : ∀ pg, pg ∈ k.freelist ↔ k.files.use pg = .free

/-- Two files have no references. -/
def TwoFiles (k : Kern ι) : Prop := ∃ f g, f ≠ g ∧ (k.files.ftable f).ref = 0 ∧ (k.files.ftable g).ref = 0

/-- `filealloc` finds a file, or there is none. -/
theorem run_filealloc (k : Kern ι) :
    (onFiles filealloc).run k = .done none k ∧ (∀ f, (k.files.ftable f).ref ≠ 0) ∨
    ∃ f, (k.files.ftable f).ref = 0 ∧ (onFiles filealloc).run k = .done (some f) (k.setFiles (k.files.setRef f 1)) := by
  have hrun : (onFiles filealloc).run k = .done k.files.freeFile (k.setFiles k.files.filealloc) := run_onFiles rfl
  cases hf : k.files.freeFile with
  | none =>
    refine .inl ⟨?_, World.freeFile_none hf⟩
    rw [hrun, hf, World.filealloc_of_none hf]
    rfl
  | some f =>
    refine .inr ⟨f, World.freeFile_ref hf, ?_⟩
    rw [hrun, hf, World.filealloc_of_some hf]

/-- A file that was not filled in is as it was before it was taken. -/
theorem run_untake (hr : (k.files.ftable f).ref = 0) (ht : (k.files.ftable f).type = .none) :
    (fileclose eput f).run (k.setFiles (k.files.setRef f 1)) = .done () k := by
  have hself : (k.files.setRef f 1).ftable f = { k.files.ftable f with ref := 1 } := World.ftable_setFile _
  rw [run_fileclose_none]
  · show Outcome.done () (k.setFiles ((k.files.setRef f 1).drop f)) = _
    rw [World.setRef_drop hr ht]
    rfl
  · show ((k.files.setRef f 1).ftable f).ref = 1
    rw [hself]
  · show ((k.files.setRef f 1).ftable f).type = .none
    rw [hself, ht]

theorem run_untake_first (hne : f₀ ≠ f₁) (hr : (k.files.ftable f₀).ref = 0) (ht : (k.files.ftable f₀).type = .none) :
    (fileclose eput f₀).run (k.setFiles ((k.files.setRef f₀ 1).setRef f₁ 1)) = .done () (k.setFiles (k.files.setRef f₁ 1)) := by
  have hother : (k.files.setRef f₁ 1).ftable f₀ = k.files.ftable f₀ := World.ftable_setFile_ne hne _
  rw [World.setRef_comm hne]
  refine run_untake (k := k.setFiles (k.files.setRef f₁ 1)) ?_ ?_
  · show ((k.files.setRef f₁ 1).ftable f₀).ref = 0
    rw [hother, hr]
  · show ((k.files.setRef f₁ 1).ftable f₀).type = .none
    rw [hother, ht]

theorem run_kalloc_nil (h : k.freelist = []) : (kalloc : KernCode ι (Option Page)).run k = .done none k := by
  rw [kalloc, Prog.run_act_some, pop, h]
  rfl

theorem run_kalloc_cons {rest : List Page} (h : k.freelist = pg :: rest) : (kalloc : KernCode ι (Option Page)).run k =
    .done (some pg) { k with files := k.files.setUse pg .other, freelist := rest } := by
  rw [kalloc, Prog.run_act_some, pop, h]
  rfl

/-- What the steps of `pipealloc` that do not fail come to. -/
theorem made_eq (hne : f₀ ≠ f₁) (rest : List Page) : k.made f₀ f₁ pg rest =
    ((({ k with files := ((k.files.setRef f₀ 1).setRef f₁ 1).setUse pg .other, freelist := rest } : Kern ι).setPipe pg).setEnd
      f₀ pg false).setEnd f₁ pg true := by
  have h₀ : ((k.files.setRef f₀ 1).setRef f₁ 1).ftable f₀ = { k.files.ftable f₀ with ref := 1 } := by
    rw [World.setRef, World.ftable_setFile_ne hne, World.setRef, World.ftable_setFile]
  have h₁ : ((k.files.setRef f₀ 1).setRef f₁ 1).ftable f₁ = { k.files.ftable f₁ with ref := 1 } := by
    rw [World.setRef, World.ftable_setFile, World.setRef, World.ftable_setFile_ne hne.symm]
  have hftable : ∀ y₀ y₁ : File, Function.update (Function.update k.files.ftable f₀ y₀) f₁ y₁ =
      Function.update (Function.update ((k.files.setRef f₀ 1).setRef f₁ 1).ftable f₀ y₀) f₁ y₁ := by
    intro y₀ y₁
    funext g
    by_cases hg₁ : g = f₁
    · rw [hg₁, Function.update_self, Function.update_self]
    by_cases hg₀ : g = f₀
    · rw [hg₀, Function.update_of_ne hne, Function.update_of_ne hne, Function.update_self, Function.update_self]
    · rw [Function.update_of_ne hg₁, Function.update_of_ne hg₁, Function.update_of_ne hg₀, Function.update_of_ne hg₀, World.setRef,
        World.ftable_setFile_ne hg₁, World.setRef, World.ftable_setFile_ne hg₀]
  simp only [made, setPipe, setEnd, setFiles, World.setUse, World.setFile, Function.update_idem, hftable, h₀,
    Function.update_of_ne hne.symm, h₁]
  rfl

/-- `pipealloc` changes nothing or makes a pipe. -/
theorem run_pipealloc (eput : Option Entry → KernCode ι Unit) (hk : Sound k) :
    (pipealloc eput).run k = .done none k ∧ ¬ (TwoFiles k ∧ k.freelist ≠ []) ∨
    ∃ f₀ f₁ pg rest, f₀ ≠ f₁ ∧ (k.files.ftable f₀).ref = 0 ∧ (k.files.ftable f₁).ref = 0 ∧ k.freelist = pg :: rest ∧
      (pipealloc eput).run k = .done (some (f₀, f₁)) (k.made f₀ f₁ pg rest) := by
  obtain ⟨hfirst, hnone⟩ | ⟨f₀, hr₀, hfirst⟩ := run_filealloc k
  · refine .inl ⟨?_, fun ⟨⟨f, _, _, hf, _⟩, _⟩ => hnone f hf⟩
    rw [pipealloc, Prog.run_bind_done hfirst]
    rfl
  have ht₀ := hk.closed f₀ hr₀
  have hbusy : ((k.files.setRef f₀ 1).ftable f₀).ref = 1 := by
    rw [World.setRef, World.ftable_setFile]
  have hother : ∀ f, f ≠ f₀ → (k.files.setRef f₀ 1).ftable f = k.files.ftable f := fun f hf => World.ftable_setFile_ne hf _
  obtain ⟨hsecond, hnone⟩ | ⟨f₁, hr₁, hsecond⟩ := run_filealloc (k.setFiles (k.files.setRef f₀ 1))
  · refine .inl ⟨?_, fun ⟨⟨f, g, hne, hf, hg⟩, _⟩ => ?_⟩
    · rw [pipealloc, Prog.run_bind_done hfirst]
      show Prog.run (onFiles filealloc >>= _) _ = _
      rw [Prog.run_bind_done hsecond]
      show ((fileclose eput f₀ >>= fun _ => .ret none : KernCode ι (Option (FileNo × FileNo)))).run _ = _
      rw [Prog.run_bind_done (run_untake hr₀ ht₀)]
      rfl
    · -- one of the two is not `f₀`
      by_cases h : f = f₀
      · refine hnone g ?_
        show ((k.files.setRef f₀ 1).ftable g).ref = 0
        rw [hother g (h ▸ hne.symm), hg]
      · refine hnone f ?_
        show ((k.files.setRef f₀ 1).ftable f).ref = 0
        rw [hother f h, hf]
  have hne : f₀ ≠ f₁ := by
    intro he
    have hr : ((k.files.setRef f₀ 1).ftable f₁).ref = 0 := hr₁
    rw [← he, hbusy] at hr
    cases hr
  have hx₁ : (k.files.setRef f₀ 1).ftable f₁ = k.files.ftable f₁ := hother f₁ hne.symm
  have hr₁' : (k.files.ftable f₁).ref = 0 := by
    rw [← hx₁]
    exact hr₁
  have hsecond : (onFiles filealloc).run (k.setFiles (k.files.setRef f₀ 1)) =
      .done (some f₁) (k.setFiles ((k.files.setRef f₀ 1).setRef f₁ 1)) := hsecond
  cases hfree : k.freelist with
  | nil =>
    refine .inl ⟨?_, fun h => h.2 rfl⟩
    rw [pipealloc, Prog.run_bind_done hfirst]
    show Prog.run (onFiles filealloc >>= _) _ = _
    rw [Prog.run_bind_done hsecond]
    show Prog.run (kalloc >>= _) _ = _
    rw [Prog.run_bind_done (run_kalloc_nil (k := k.setFiles ((k.files.setRef f₀ 1).setRef f₁ 1)) hfree)]
    show ((fileclose eput f₀ >>= fun _ => fileclose eput f₁ >>= fun _ => .ret none : KernCode ι (Option (FileNo × FileNo)))).run _ = _
    rw [Prog.run_bind_done (run_untake_first hne hr₀ ht₀), Prog.run_bind_done (run_untake hr₁' (hk.closed f₁ hr₁'))]
    rfl
  | cons pg rest =>
    refine .inr ⟨f₀, f₁, pg, rest, hne, hr₀, hr₁', rfl, ?_⟩
    rw [pipealloc, Prog.run_bind_done hfirst]
    show Prog.run (onFiles filealloc >>= _) _ = _
    rw [Prog.run_bind_done hsecond]
    show Prog.run (kalloc >>= _) _ = _
    rw [Prog.run_bind_done (run_kalloc_cons (k := k.setFiles ((k.files.setRef f₀ 1).setRef f₁ 1)) hfree), made_eq hne]
    rfl

/-! ### `sys_pipe` -/

variable [DecidableEq ι] {fdarray : Nat}

/-- Two descriptors of the process are free. -/
def TwoFds (k : Kern ι) (p : ι) : Prop := ∃ fd fd', fd ≠ fd' ∧ k.files.ofile p fd = none ∧ k.files.ofile p fd' = none

/-- All that the call needs is there. -/
structure Enough (p : ι) (fdarray : Nat) (k : Kern ι) : Prop where
  files : TwoFiles k
  page : k.freelist ≠ []
  fds : TwoFds k p
  first : ¬ k.outside p fdarray intSz
  second : ¬ k.outside p (u64 (fdarray + intSz)) intSz

/-- What a call that fails leaves as it was. Fields of a file without references and of a page that is free
do not count, and the first number may have been copied out. -/
structure Untouched (p : ι) (fdarray : Nat) (k k' : Kern ι) : Prop where
  ofile : k'.files.ofile = k.files.ofile
  refs : ∀ f, (k'.files.ftable f).ref = (k.files.ftable f).ref
  files : ∀ f, 0 < (k.files.ftable f).ref → k'.files.ftable f = k.files.ftable f
  freelist : k'.freelist = k.freelist
  use : k'.files.use = k.files.use
  pipes : ∀ pg, k.files.use pg ≠ .free →
    k'.files.ends pg = k.files.ends pg ∧ k'.nread pg = k.nread pg ∧ k'.nwrite pg = k.nwrite pg
  user : ∀ i a, (i = p → a < fdarray ∨ fdarray + intSz ≤ a) → k'.user i a = k.user i a

/-- What a call that succeeds makes: two descriptors that were free are the ends of a pipe in a page that
was free, and their numbers are at the address. -/
structure Piped (p : ι) (fdarray : Nat) (k k' : Kern ι) (fd₀ fd₁ : Fd) (rf wf : FileNo) (pg : Page) : Prop where
  fds : fd₀ ≠ fd₁ ∧ k.files.ofile p fd₀ = none ∧ k.files.ofile p fd₁ = none
  ofile : k'.files.ofile = Function.update k.files.ofile p
    (Function.update (Function.update (k.files.ofile p) fd₀ (some rf)) fd₁ (some wf))
  fresh : rf ≠ wf ∧ (k.files.ftable rf).ref = 0 ∧ (k.files.ftable wf).ref = 0
  read : k'.files.ftable rf = asEnd (k.files.ftable rf) pg false
  write : k'.files.ftable wf = asEnd (k.files.ftable wf) pg true
  files : ∀ f, f ≠ rf → f ≠ wf → k'.files.ftable f = k.files.ftable f
  freelist : k.freelist = pg :: k'.freelist ∧ pg ∉ k'.freelist
  alone : ∀ f, (k.files.ftable f).type = .pipe → (k.files.ftable f).pipe ≠ some pg
  pipe : k'.files.ends pg = ⟨true, true⟩ ∧ k'.nread pg = 0 ∧ k'.nwrite pg = 0
  pipes : ∀ q, q ≠ pg → k'.files.ends q = k.files.ends q ∧ k'.nread q = k.nread q ∧ k'.nwrite q = k.nwrite q
  stored : word32 (k'.user p) fdarray = fd₀ ∧ word32 (k'.user p) (u64 (fdarray + intSz)) = fd₁

end Kern

namespace World
variable [DecidableEq ι] {s : World ι} {p : ι} {fd fd' : Fd}

theorem setFd_setFd (o o' : Option FileNo) : (s.setFd p fd o).setFd p fd o' = s.setFd p fd o' := by
  simp only [setFd, Function.update_idem, Function.update_self]

theorem setFd_comm (h : fd ≠ fd') (o o' : Option FileNo) : (s.setFd p fd o).setFd p fd' o' = (s.setFd p fd' o').setFd p fd o := by
  simp only [setFd, Function.update_idem, Function.update_self, Function.update_comm h]

theorem setFd_self (h : s.ofile p fd = none) : s.setFd p fd none = s := by
  rw [setFd, ← h, Function.update_eq_self, Function.update_eq_self]

/-- Both descriptors are given and taken back. -/
theorem setFd_back (hne : fd ≠ fd') (h : s.ofile p fd = none) (h' : s.ofile p fd' = none) (o o' : Option FileNo) :
    (((s.setFd p fd o).setFd p fd' o').setFd p fd none).setFd p fd' none = s := by
  rw [setFd_comm hne.symm, setFd_setFd, setFd_setFd, setFd_self h, setFd_self h']

end World

namespace Kern
variable [DecidableEq ι] {eput : Option Entry → KernCode ι Unit} {k : Kern ι} {p : ι} {f f₀ f₁ : FileNo} {pg : Page} {fdarray : Nat}

/-- `fdalloc` finds a descriptor, or there is none. -/
theorem run_fdalloc (k : Kern ι) (f : FileNo) :
    (onFiles (fdalloc p f)).run k = .done none k ∧ (∀ fd, k.files.ofile p fd ≠ none) ∨
    ∃ fd, k.files.ofile p fd = none ∧ (onFiles (fdalloc p f)).run k = .done (some fd) (k.giveFd p fd f) := by
  have hrun : (onFiles (fdalloc p f)).run k = .done (k.files.freeFd p) (k.setFiles (k.files.fdalloc p f)) := run_onFiles rfl
  cases hfd : k.files.freeFd p with
  | none =>
    refine .inl ⟨?_, fun fd => ?_⟩
    · rw [hrun, hfd, World.fdalloc, hfd]
      rfl
    · simpa using List.find?_eq_none.mp hfd fd (List.mem_finRange fd)
  | some fd =>
    refine .inr ⟨fd, by simpa using List.find?_some hfd, ?_⟩
    rw [hrun, hfd, World.fdalloc, hfd]
    rfl

/-- A descriptor that was given is taken back. -/
theorem clearFd_giveFd {fd : Fd} (h : k.files.ofile p fd = none) (f : FileNo) : (k.giveFd p fd f).clearFd p (some fd) = k := by
  show k.setFiles ((k.files.setFd p fd (some f)).setFd p fd none) = k
  rw [World.setFd_setFd, World.setFd_self h]
  rfl

theorem clearFd_giveFd_both {fd fd' : Fd} (hne : fd ≠ fd') (h : k.files.ofile p fd = none) (h' : k.files.ofile p fd' = none)
    (f f' : FileNo) : (((k.giveFd p fd f).giveFd p fd' f').clearFd p (some fd)).clearFd p (some fd') = k := by
  show k.setFiles ((((k.files.setFd p fd (some f)).setFd p fd' (some f')).setFd p fd none).setFd p fd' none) = k
  rw [World.setFd_back hne h h']
  rfl

theorem ofile_giveFd (fd : Fd) (f : FileNo) : (k.giveFd p fd f).files.ofile p = Function.update (k.files.ofile p) fd (some f) :=
  Function.update_self ..

theorem run_copyout2_out {addr : Nat} {src : Nat → Byte} {len : Nat} (h : k.outside p addr len) :
    (copyout2 p addr src len).run k = .done (-1) k := by
  rw [copyout2, Prog.run_act_some, if_pos h, if_pos h]
  rfl

theorem run_copyout2_in {addr : Nat} {src : Nat → Byte} {len : Nat} (h : ¬ k.outside p addr len) :
    (copyout2 p addr src len).run k = .done 0 (k.copied p addr len src) := by
  rw [copyout2, Prog.run_act_some, if_neg h, if_neg h]
  rfl

omit [DecidableEq ι] in
/-- The files are closed and the descriptors free again: nothing but `rf`, `wf` and the page has been touched. -/
theorem untouched_undo {rest : List Page} (hk : Sound k) (hr₀ : (k.files.ftable f₀).ref = 0) (hr₁ : (k.files.ftable f₁).ref = 0)
    (hfree : k.freelist = pg :: rest) {u : ι → Nat → Byte}
    (hu : ∀ i a, (i = p → a < fdarray ∨ fdarray + intSz ≤ a) → u i a = k.user i a) :
    Untouched p fdarray k (Made.closeEnds { k.made f₀ f₁ pg rest with user := u } f₀ f₁ (k.files.ftable f₀) (k.files.ftable f₁) pg) := by
  obtain ⟨k', hk'⟩ : ∃ k', Made.closeEnds { k.made f₀ f₁ pg rest with user := u } f₀ f₁ (k.files.ftable f₀) (k.files.ftable f₁) pg = k' :=
    ⟨_, rfl⟩
  have hpg : k.files.use pg = .free := (hk.free pg).mp (by rw [hfree]; exact List.mem_cons_self)
  have h₁ : (k'.files.ftable f₁).ref = 0 := by
    rw [← hk', Made.closeEnds_ftable, Function.update_self]
  have h₀ : (k'.files.ftable f₀).ref = 0 := by
    by_cases he : f₀ = f₁
    · rw [he, h₁]
    · rw [← hk', Made.closeEnds_ftable, Function.update_of_ne he, Function.update_self]
  have hother : ∀ f, f ≠ f₀ → f ≠ f₁ → k'.files.ftable f = k.files.ftable f := by
    intro f hf₀ hf₁
    rw [← hk', Made.closeEnds_ftable, Function.update_of_ne hf₁, Function.update_of_ne hf₀]
    exact (Function.update_of_ne hf₁ _ _).trans (Function.update_of_ne hf₀ _ _)
  rw [hk']
  refine ⟨?_, fun f => ?_, fun f hf => hother f ?_ ?_, ?_, ?_, fun q hq => ?_, fun i a ha => ?_⟩
  · rw [← hk']
    rfl
  · by_cases hf₁ : f = f₁
    · rw [hf₁, h₁, hr₁]
    by_cases hf₀ : f = f₀
    · rw [hf₀, h₀, hr₀]
    · rw [hother f hf₀ hf₁]
  · rintro rfl
    omega
  · rintro rfl
    omega
  · rw [← hk', hfree]
    rfl
  · rw [← hk', ← Function.update_eq_self pg k.files.use, hpg]
    show Function.update (Function.update k.files.use pg .pipe) pg .free = _
    rw [Function.update_idem]
  · have hne : q ≠ pg := by
      rintro rfl
      exact hq hpg
    rw [← hk']
    show Function.update (Function.update (Function.update k.files.ends pg _) pg _) pg _ q = _ ∧
      Function.update k.nread pg 0 q = _ ∧ Function.update k.nwrite pg 0 q = _
    simp only [Function.update_of_ne hne, and_self]
  · rw [← hk']
    exact hu i a ha

/-- The numbers are next to each other. -/
theorem stored_both (fdarray a b : Nat) (ha : a < 2 ^ 32) (hb : b < 2 ^ 32) (u : Nat → Byte) :
    word32 (putWord32 (u64 (fdarray + intSz)) b (putWord32 fdarray a u)) fdarray = a ∧
      word32 (putWord32 (u64 (fdarray + intSz)) b (putWord32 fdarray a u)) (u64 (fdarray + intSz)) = b := by
  refine ⟨?_, word32_putWord32 _ _ hb⟩
  have hapart : fdarray + 4 ≤ u64 (fdarray + intSz) ∨ u64 (fdarray + intSz) + 4 ≤ fdarray := by
    unfold u64 intSz
    omega
  rw [word32_putWord32_ne _ _ hapart, word32_putWord32 _ _ ha]

/-- Nothing is stored, the first number is, or both are. -/
theorem run_storeFds (eput : Option Entry → KernCode ι Unit) (k : Kern ι) (p : ι) (fdarray : Nat) (fd₀ fd₁ : Fd) (f₀ f₁ : FileNo) :
    (∃ u : ι → Nat → Byte, (∀ i a, (i = p → a < fdarray ∨ fdarray + intSz ≤ a) → u i a = k.user i a) ∧
        (storeFds eput p fdarray fd₀ fd₁ f₀ f₁).run k = (undo eput p (some fd₀) (some fd₁) f₀ f₁).run { k with user := u }) ∧
      (k.outside p fdarray intSz ∨ k.outside p (u64 (fdarray + intSz)) intSz) ∨
    (storeFds eput p fdarray fd₀ fd₁ f₀ f₁).run k =
        .done 0 ((k.copied p fdarray intSz (wordByte fd₀)).copied p (u64 (fdarray + intSz)) intSz (wordByte fd₁)) ∧
      ¬ k.outside p fdarray intSz ∧ ¬ k.outside p (u64 (fdarray + intSz)) intSz := by
  by_cases hfirst : k.outside p fdarray intSz
  · refine .inl ⟨⟨k.user, fun _ _ _ => rfl, ?_⟩, .inl hfirst⟩
    rw [storeFds, Prog.run_bind_done (run_copyout2_out hfirst)]
    rfl
  obtain ⟨k', hk'⟩ : ∃ k', k.copied p fdarray intSz (wordByte fd₀) = k' := ⟨_, rfl⟩
  have hsz : k'.sz = k.sz := by
    rw [← hk']
    rfl
  have hrun : (storeFds eput p fdarray fd₀ fd₁ f₀ f₁).run k = Prog.run (do
      if (← copyout2 p (u64 (fdarray + intSz)) (wordByte fd₁) intSz) < 0 then undo eput p (some fd₀) (some fd₁) f₀ f₁
      else return 0) k' := by
    rw [storeFds, Prog.run_bind_done (run_copyout2_in hfirst), hk']
    rfl
  by_cases hsecond : k.outside p (u64 (fdarray + intSz)) intSz
  · refine .inl ⟨⟨k'.user, fun i a ha => ?_, ?_⟩, .inr hsecond⟩
    · rw [← hk']
      show Function.update k.user p _ i a = _
      by_cases hi : i = p
      · rw [hi, Function.update_self, overwrite_out _ _ (ha hi)]
      · rw [Function.update_of_ne hi]
    · have hout : k'.outside p (u64 (fdarray + intSz)) intSz := by
        unfold outside
        rw [hsz]
        exact hsecond
      rw [hrun, Prog.run_bind_done (run_copyout2_out hout), ← hk']
      rfl
  · have hin : ¬ k'.outside p (u64 (fdarray + intSz)) intSz := by
      unfold outside
      rw [hsz]
      exact hsecond
    refine .inr ⟨?_, hfirst, hsecond⟩
    rw [hrun, Prog.run_bind_done (run_copyout2_in hin), if_neg (lt_irrefl _), hk']
    rfl

/-- What the call has made once nothing can fail any more. -/
theorem piped_stored {k₂ : Kern ι} {rest : List Page} {fd₀ fd₁ : Fd} (hk : Sound k) (hne : f₀ ≠ f₁) (hr₀ : (k.files.ftable f₀).ref = 0)
    (hr₁ : (k.files.ftable f₁).ref = 0) (hfree : k.freelist = pg :: rest) (hfds : fd₀ ≠ fd₁) (hofile₀ : k.files.ofile p fd₀ = none)
    (hofile₁ : k.files.ofile p fd₁ = none) (hk₂ : ((k.made f₀ f₁ pg rest).giveFd p fd₀ f₀).giveFd p fd₁ f₁ = k₂) :
    Piped p fdarray k ((k₂.copied p fdarray intSz (wordByte fd₀)).copied p (u64 (fdarray + intSz)) intSz (wordByte fd₁))
      fd₀ fd₁ f₀ f₁ pg := by
  have hmade := k.made_made hne pg rest
  have hpg : k.files.use pg = .free := (hk.free pg).mp (by rw [hfree]; exact List.mem_cons_self)
  have huser : ((k₂.copied p fdarray intSz (wordByte fd₀)).copied p (u64 (fdarray + intSz)) intSz (wordByte fd₁)).user p =
      putWord32 (u64 (fdarray + intSz)) fd₁ (putWord32 fdarray fd₀ (k.user p)) := by
    rw [← hk₂]
    show Function.update (Function.update k.user p _) p (overwrite _ intSz _ (Function.update k.user p _ p)) p = _
    rw [Function.update_self, Function.update_self]
    rfl
  have hlt : ∀ fd : Fd, fd.val < 2 ^ 32 := fun fd => fd.isLt.trans (by decide)
  have hstored := stored_both fdarray fd₀ fd₁ (hlt fd₀) (hlt fd₁) (k.user p)
  rw [← huser] at hstored
  rw [← hk₂] at hstored ⊢
  refine ⟨⟨hfds, hofile₀, hofile₁⟩, ?_, ⟨hne, hr₀, hr₁⟩, hmade.read, hmade.write, fun f hf₀ hf₁ => ?_, ⟨hfree, ?_⟩,
    fun f hf hp => ?_, ⟨hmade.ends, Function.update_self .., Function.update_self ..⟩, fun q hq => ?_, hstored⟩
  · show Function.update (Function.update k.files.ofile p _) p (Function.update (Function.update k.files.ofile p _ p) fd₁ _) = _
    rw [Function.update_self, Function.update_idem]
    rfl
  · exact (Function.update_of_ne hf₁ _ _).trans (Function.update_of_ne hf₀ _ _)
  · have hnodup := hk.nodup
    rw [hfree, List.nodup_cons] at hnodup
    exact hnodup.1
  · obtain ⟨pg', hp', hu⟩ := hk.pipe f hf
    rw [hp] at hp'
    cases hp'
    rw [hpg] at hu
    cases hu
  · exact ⟨Function.update_of_ne hq .., Function.update_of_ne hq .., Function.update_of_ne hq ..⟩

/-- The ends have descriptors and the numbers are stored, or everything is undone. -/
theorem Made.run_giveFds (eput : Option Entry → KernCode ι Unit) {x₀ x₁ : File} (h : Made k f₀ f₁ pg x₀ x₁) (p : ι) (fdarray : Nat) :
    (∃ u : ι → Nat → Byte, (∀ i a, (i = p → a < fdarray ∨ fdarray + intSz ≤ a) → u i a = k.user i a) ∧
        (giveFds eput p fdarray f₀ f₁).run k = .done (-1) (closeEnds { k with user := u } f₀ f₁ x₀ x₁ pg)) ∧
      (TwoFds k p → k.outside p fdarray intSz ∨ k.outside p (u64 (fdarray + intSz)) intSz) ∨
    ∃ fd₀ fd₁, (fd₀ ≠ fd₁ ∧ k.files.ofile p fd₀ = none ∧ k.files.ofile p fd₁ = none) ∧
      (¬ k.outside p fdarray intSz ∧ ¬ k.outside p (u64 (fdarray + intSz)) intSz) ∧
      (giveFds eput p fdarray f₀ f₁).run k = .done 0 ((((k.giveFd p fd₀ f₀).giveFd p fd₁ f₁).copied p fdarray intSz
        (wordByte fd₀)).copied p (u64 (fdarray + intSz)) intSz (wordByte fd₁)) := by
  obtain ⟨hfd₀, hnone⟩ | ⟨fd₀, hofile₀, hfd₀⟩ := run_fdalloc (p := p) k f₀
  · refine .inl ⟨⟨k.user, fun _ _ _ => rfl, ?_⟩, fun ⟨fd, _, _, hfd, _⟩ => absurd hfd (hnone fd)⟩
    rw [giveFds, Prog.run_bind_done hfd₀]
    exact h.run_undo none none
  obtain ⟨hfd₁, hnone⟩ | ⟨fd₁, hofile₁, hfd₁⟩ := run_fdalloc (p := p) (k.giveFd p fd₀ f₀) f₁
  · refine .inl ⟨⟨k.user, fun _ _ _ => rfl, ?_⟩, fun ⟨fd, fd', hfds, hfd, hfd'⟩ => ?_⟩
    · rw [giveFds, Prog.run_bind_done hfd₀]
      show Prog.run (onFiles (fdalloc p f₁) >>= _) _ = _
      rw [Prog.run_bind_done hfd₁]
      refine ((h.giveFd fd₀ f₀).run_undo (some fd₀) none).trans ?_
      rw [clearFd_giveFd hofile₀]
      rfl
    · -- one of the two is not `fd₀`
      have hkept : ∀ x, x ≠ fd₀ → k.files.ofile p x ≠ none := by
        intro x hx hnil
        refine hnone x ?_
        rw [ofile_giveFd, Function.update_of_ne hx, hnil]
      by_cases he : fd = fd₀
      · exact absurd hfd' (hkept fd' (he ▸ hfds.symm))
      · exact absurd hfd (hkept fd he)
  rw [ofile_giveFd] at hofile₁
  have hfds : fd₀ ≠ fd₁ := by
    rintro rfl
    rw [Function.update_self] at hofile₁
    cases hofile₁
  rw [Function.update_of_ne hfds.symm] at hofile₁
  have hrun : (giveFds eput p fdarray f₀ f₁).run k =
      (storeFds eput p fdarray fd₀ fd₁ f₀ f₁).run ((k.giveFd p fd₀ f₀).giveFd p fd₁ f₁) := by
    rw [giveFds, Prog.run_bind_done hfd₀]
    show Prog.run (onFiles (fdalloc p f₁) >>= _) _ = _
    rw [Prog.run_bind_done hfd₁]
  obtain ⟨⟨u, hu, hstore⟩, hout⟩ | ⟨hstore, hin⟩ :=
    run_storeFds eput ((k.giveFd p fd₀ f₀).giveFd p fd₁ f₁) p fdarray fd₀ fd₁ f₀ f₁
  · refine .inl ⟨⟨u, hu, ?_⟩, fun _ => hout⟩
    have hmade : Made { k with user := u } f₀ f₁ pg x₀ x₁ := ⟨h.ne, h.read, h.write, h.ends, h.use⟩
    have hundo : (undo eput p (some fd₀) (some fd₁) f₀ f₁).run _ = _ :=
      ((hmade.giveFd (p := p) fd₀ f₀).giveFd (p := p) fd₁ f₁).run_undo (some fd₀) (some fd₁)
    rw [clearFd_giveFd_both (k := { k with user := u }) hfds hofile₀ hofile₁] at hundo
    exact hrun.trans (hstore.trans hundo)
  · exact .inr ⟨fd₀, fd₁, ⟨hfds, hofile₀, hofile₁⟩, hin, hrun.trans hstore⟩

/-- **One call.** -/
theorem run_sysPipe (eput : Option Entry → KernCode ι Unit) (hk : Sound k) (p : ι) (fdarray : Nat) :
    (∃ k', (sysPipe eput p fdarray).run k = .done (-1) k' ∧ Untouched p fdarray k k') ∧ ¬ Enough p fdarray k ∨
    (∃ k' fd₀ fd₁ rf wf pg, (sysPipe eput p fdarray).run k = .done 0 k' ∧ Piped p fdarray k k' fd₀ fd₁ rf wf pg) ∧
      Enough p fdarray k := by
  obtain ⟨hpipe, hshort⟩ | ⟨f₀, f₁, pg, rest, hne, hr₀, hr₁, hfree, hpipe⟩ := run_pipealloc eput hk
  · refine .inl ⟨⟨k, ?_, ?_⟩, fun h => hshort ⟨h.files, h.page⟩⟩
    · rw [sysPipe, Prog.run_bind_done hpipe]
      rfl
    · exact ⟨rfl, fun _ => rfl, fun _ _ => rfl, rfl, rfl, fun _ _ => ⟨rfl, rfl, rfl⟩, fun _ _ _ => rfl⟩
  have hrun : (sysPipe eput p fdarray).run k = (giveFds eput p fdarray f₀ f₁).run (k.made f₀ f₁ pg rest) := by
    rw [sysPipe, Prog.run_bind_done hpipe]
  obtain ⟨⟨u, hu, hgive⟩, hout⟩ | ⟨fd₀, fd₁, ⟨hfds, hofile₀, hofile₁⟩, ⟨hfirst, hsecond⟩, hgive⟩ :=
    (k.made_made hne pg rest).run_giveFds eput p fdarray
  · refine .inl ⟨⟨_, hrun.trans hgive, untouched_undo hk hr₀ hr₁ hfree hu⟩, fun h => ?_⟩
    exact (hout h.fds).elim h.first h.second
  · refine .inr ⟨⟨_, fd₀, fd₁, f₀, f₁, pg, hrun.trans hgive, piped_stored hk hne hr₀ hr₁ hfree hfds hofile₀ hofile₁ rfl⟩,
      ⟨f₀, f₁, hne, hr₀, hr₁⟩, ?_, ⟨fd₀, fd₁, hfds, hofile₀, hofile₁⟩, hfirst, hsecond⟩
    rw [hfree]
    exact List.cons_ne_nil _ _

/-! ### Calls from any state -/

/-- A state that a process can find: `files` is what calls of all processes have come to, some of which may still
be going on, and the free list has each free page once. -/
structure Reached [Fintype ι] (proc : List ι) (initproc p : ι) (k : Kern ι) : Prop where
  files : ∃ use ends g, Reach (client proc initproc) (fun _ _ => True) (start initproc use ends) g ∧ g.shared = k.files ∧
    g.thread p = .ret ()
  nodup : k.freelist.Nodup
  free : ∀ pg, pg ∈ k.freelist ↔ k.files.use pg = .free

theorem Reached.sound [Fintype ι] {proc : List ι} {initproc : ι} (h : Reached proc initproc p k) : Sound k := by
  obtain ⟨use, ends, g, hg, hfiles, -⟩ := h.files
  obtain ⟨own, hK, -⟩ := files_kept proc initproc use ends hg
  rw [hfiles] at hK
  refine ⟨hK.pipes.closed, fun f hf => ?_, h.nodup, h.free⟩
  obtain ⟨pg, hp, hu, -⟩ := hK.pipes.pipe f hf
  exact ⟨pg, hp, hu⟩

/-- **`pipe`.** A call that fails leaves no trace; one that succeeds makes a pipe and stores its descriptors. It fails if and
only if something that it needs is not there. -/
theorem pipe_traceless [Fintype ι] (eput : Option Entry → KernCode ι Unit) {proc : List ι} {initproc : ι}
    (hk : Reached proc initproc p k) (fdarray : Nat) : ∃ r k', (sysPipe eput p fdarray).run k = .done r k' ∧
      (r = -1 ∧ ¬ Enough p fdarray k ∧ Untouched p fdarray k k' ∨
       r = 0 ∧ Enough p fdarray k ∧ ∃ fd₀ fd₁ rf wf pg, Piped p fdarray k k' fd₀ fd₁ rf wf pg) := by
  obtain ⟨⟨k', hrun, hk'⟩, hnot⟩ | ⟨⟨k', fd₀, fd₁, rf, wf, pg, hrun, hk'⟩, henough⟩ := run_sysPipe eput hk.sound p fdarray
  · exact ⟨-1, k', hrun, .inl ⟨rfl, hnot, hk'⟩⟩
  · exact ⟨0, k', hrun, .inr ⟨rfl, henough, fd₀, fd₁, rf, wf, pg, hk'⟩⟩

/-- One process and one page that is free, if there is one. -/
def booted (page : Bool) : Kern (Fin 2) where
  files := (start 0 (fun pg => !(page && pg == 5)) fun _ => ⟨false, false⟩).shared
  freelist := if page then [5] else []
  nread _ := 0
  nwrite _ := 0
  sz _ := 4096
  user _ _ := 0

theorem booted_reached (page : Bool) : Reached [0, 1] 0 0 (booted page) := by
  refine ⟨⟨_, _, _, .refl, rfl, rfl⟩, ?_, fun pg => ?_⟩
  · cases page <;> decide
  · cases page with
    | false => exact ⟨fun h => (by cases h), fun h => (by cases h)⟩
    | true =>
      show pg ∈ [5] ↔ (if !(pg == 5) then Use.other else Use.free) = .free
      by_cases h : pg = 5
      · simp [h]
      · simp [h]

/-- A pipe is made; without a page none is. -/
theorem pipe_traceless_booted :
    (∃ k' fd₀ fd₁ rf wf pg, (sysPipe (fun _ => .ret ()) 0 16).run (booted true) = .done 0 k' ∧
      Piped 0 16 (booted true) k' fd₀ fd₁ rf wf pg) ∧
    ∃ k', (sysPipe (fun _ => .ret ()) 0 16).run (booted false) = .done (-1) k' ∧ Untouched 0 16 (booted false) k' := by
  have henough : Enough 0 16 (booted true) :=
    ⟨⟨⟨0, by decide⟩, ⟨1, by decide⟩, by decide, rfl, rfl⟩, by decide, ⟨⟨0, by decide⟩, ⟨1, by decide⟩, by decide, rfl, rfl⟩, by decide,
      by decide⟩
  constructor
  · obtain ⟨r, k', hrun, ⟨-, hnot, -⟩ | ⟨rfl, -, fd₀, fd₁, rf, wf, pg, hk'⟩⟩ :=
      pipe_traceless (fun _ => .ret ()) (booted_reached true) 16
    · exact absurd henough hnot
    · exact ⟨k', fd₀, fd₁, rf, wf, pg, hrun, hk'⟩
  · obtain ⟨r, k', hrun, ⟨rfl, -, hk'⟩ | ⟨-, hok, -⟩⟩ := pipe_traceless (fun _ => .ret ()) (booted_reached false) 16
    · exact ⟨k', hrun, hk'⟩
    · exact absurd rfl hok.page

end Kern

end Farron.Files
