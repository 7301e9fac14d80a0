import Farron.Memory.Vm

/-! Copies between the kernel and the user, from `kernel/vm.c`.

`copyin`, `copyout` and `copyinstr` walk the user page table; `copyin2`, `copyout2` and
`copyinstr2` compare with the size of the process and then use user addresses as they are,
which the kernel page table maps. What the hardware does with such an address is `Ram.load`
and `Ram.store`: the kernel may not use a page with `PTE_U`. -/
namespace Farron.Memory
open Resumption Radix

/-- Where the kernel has a buffer: among its own objects, or in a page it allocated. -/
inductive Dst
  | kern (a : Nat)
  | page (p : Page) (o : Nat)

def Dst.add : Dst → Nat → Dst
  | .kern a, n => .kern (a + n)
  | .page p o, n => .page p (o + n)

namespace Ram
variable (m : Ram)

/-- `n` bytes of a buffer are written. -/
def put (dst : Dst) (n : Nat) (src : Nat → Byte) : Ram :=
  match dst with
  | .kern a => { m with kern := overwrite a n src m.kern }
  | .page p o => m.write p (overwrite o n src (m.byte p))

/-- The leaf for an address; from `MAXVA` on no process has any. -/
def leaf (root : Page) (va : Nat) : Option Pte := if va < maxva then find m.heap 2 root (px va) else none

/-- A load by the kernel. -/
def load (kpagetable : Page) (va : Nat) : Option Byte :=
  (m.leaf kpagetable va).bind fun e =>
    if e.flags.testBit 1 ∧ isUser e.flags = false then some (m.byte e.page (va % pgsize)) else none

/-- A store by the kernel. -/
def store (kpagetable : Page) (va : Nat) (b : Byte) : Option Ram :=
  (m.leaf kpagetable va).bind fun e =>
    if e.flags.testBit 2 ∧ isUser e.flags = false then
      some (m.write e.page (Function.update (m.byte e.page) (va % pgsize) b))
    else none

end Ram

def put (dst : Dst) (n : Nat) (src : Nat → Byte) : Vm Unit := Prog.change .plain fun m => m.put dst n src

def load (kpagetable : Page) (va : Nat) : Vm Byte := do
  match (← Prog.look .plain).load kpagetable va with
  | some b => return b
  | none => .stop (.fault "load page fault")

def storeAt (kpagetable : Page) (va : Nat) (b : Byte) : Vm Unit :=
  .act .plain (fun m => some ((m.store kpagetable va b).getD m)) fun m =>
    if (m.store kpagetable va b).isSome then .ret () else .stop (.fault "store page fault")

/-- `memmove` from user addresses. -/
def moveIn (kpagetable : Page) (dst : Dst) (srcva : Nat) : Nat → Vm Unit
  | 0 => return
  | n + 1 => do
    let b ← load kpagetable srcva
    put dst 1 fun _ => b
    moveIn kpagetable (dst.add 1) (srcva + 1) n

/-- `memmove` to user addresses. -/
def moveOut (kpagetable : Page) (dstva : Nat) (src : Nat → Byte) : Nat → Vm Unit
  | 0 => return
  | n + 1 => do
    storeAt kpagetable dstva (src 0)
    moveOut kpagetable (dstva + 1) (fun i => src (i + 1)) n

def copyoutLoop (pagetable : Page) : Nat → Nat → (Nat → Byte) → Nat → Vm Int
  | 0, _, _, _ => .stop .spin
  | rounds + 1, dstva, src, len =>
    if len > 0 then do
      let va0 := pgrounddown dstva
      match ← walkaddr pagetable va0 with
      | none => return -1
      | some pa0 => do
        let n := min (pgsize - (dstva - va0)) len
        store pa0 (dstva - va0) n src
        copyoutLoop pagetable rounds (u64 (va0 + pgsize)) (fun i => src (i + n)) (len - n)
    else return 0

/-- Each round but the first and the last copies a page. -/
def copyout (pagetable : Page) (dstva : Nat) (src : Nat → Byte) (len : Nat) : Vm Int :=
  copyoutLoop pagetable (len / pgsize + 3) dstva src len

/-- `sz` and `kpagetable` are those of `myproc()`. -/
def copyout2 (sz : Nat) (kpagetable : Page) (dstva : Nat) (src : Nat → Byte) (len : Nat) : Vm Int :=
  if u64 (dstva + len) > sz ∨ dstva ≥ sz then return -1
  else do
    moveOut kpagetable dstva src len
    return 0

def copyinLoop (pagetable : Page) : Nat → Dst → Nat → Nat → Vm Int
  | 0, _, _, _ => .stop .spin
  | rounds + 1, dst, srcva, len =>
    if len > 0 then do
      let va0 := pgrounddown srcva
      match ← walkaddr pagetable va0 with
      | none => return -1
      | some pa0 => do
        let n := min (pgsize - (srcva - va0)) len
        let m ← Prog.look .plain
        put dst n fun i => m.byte pa0 (srcva - va0 + i)
        copyinLoop pagetable rounds (dst.add n) (u64 (va0 + pgsize)) (len - n)
    else return 0

def copyin (pagetable : Page) (dst : Dst) (srcva len : Nat) : Vm Int :=
  copyinLoop pagetable (len / pgsize + 3) dst srcva len

def copyin2 (sz : Nat) (kpagetable : Page) (dst : Dst) (srcva len : Nat) : Vm Int :=
  if u64 (srcva + len) > sz ∨ srcva ≥ sz then return -1
  else do
    moveIn kpagetable dst srcva len
    return 0

/-- The inner loop of `copyinstr`: whether it met the NUL. -/
def copyinstrPage (pa0 : Page) (dst : Dst) (o : Nat) : Nat → Vm Bool
  | 0 => return false
  | n + 1 => do
    let m ← Prog.look .plain
    if m.byte pa0 o = 0 then do
      put dst 1 fun _ => 0
      return true
    else do
      put dst 1 fun _ => m.byte pa0 o
      copyinstrPage pa0 (dst.add 1) (o + 1) n

def copyinstrLoop (pagetable : Page) : Nat → Dst → Nat → Nat → Vm Int
  | 0, _, _, _ => .stop .spin
  | rounds + 1, dst, srcva, max =>
    if max > 0 then do
      let va0 := pgrounddown srcva
      match ← walkaddr pagetable va0 with
      | none => return -1
      | some pa0 => do
        let n := min (pgsize - (srcva - va0)) max
        if ← copyinstrPage pa0 dst (srcva - va0) n then return 0
        else copyinstrLoop pagetable rounds (dst.add n) (u64 (va0 + pgsize)) (max - n)
    else return -1

def copyinstr (pagetable : Page) (dst : Dst) (srcva max : Nat) : Vm Int :=
  copyinstrLoop pagetable (max / pgsize + 3) dst srcva max

def copyinstr2 (sz : Nat) (kpagetable : Page) (dst : Dst) (srcva : Nat) : Nat → Vm Int
  | 0 => return -1
  | max + 1 =>
    if srcva < sz then do
      let b ← load kpagetable srcva
      if b = 0 then do
        put dst 1 fun _ => 0
        return 0
      else do
        put dst 1 fun _ => b
        copyinstr2 sz kpagetable (dst.add 1) (srcva + 1) max
    else return -1

end Farron.Memory
