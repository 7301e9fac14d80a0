import Farron.Memory.Pages

/-! The page allocator and the page tables: `kernel/kalloc.c`, `kernel/vm.c`.

One definition a function. Page tables and physical pages are page numbers, virtual
addresses 64-bit words. Loops are recursion on a number of rounds that the loop cannot
exceed, on the remaining indices of a page, or (`freeTree`) on the depth of the tree. -/
namespace Farron.Memory
open Resumption Radix

/-- What the linker and `kvminit` have settled: the first address after the kernel, the page
of the trampoline, the root of the kernel's page table. -/
structure Board where
  kernelEnd : Nat
  trampoline : Page
  kernelPagetable : Page

variable (board : Board)

/-! ### kalloc.c -/

/-- The test of `kfree`, passed. -/
def Board.managed (pa : Page) : Prop := board.kernelEnd ≤ pa * pgsize ∧ pa * pgsize < phystop

instance (pa : Page) : Decidable (board.managed pa) := inferInstanceAs (Decidable (_ ∧ _))

def kfree (pa : Page) : Vm Unit :=
  if board.managed pa then Prog.change (.kfree pa) fun m => m.push pa
  else panic "kfree"

def kalloc (use : Use) : Vm (Option Page) :=
  .act .plain (fun m => some (m.pop use)) fun m => .ret m.free.head?

/-- `memset(p, c, PGSIZE)`. -/
def memset (p : Page) (c : Byte) : Vm Unit := Prog.change .plain fun m => m.write p fun _ => c

/-- `memmove(dst, src, PGSIZE)`. -/
def movePage (dst src : Page) : Vm Unit := Prog.change .plain fun m => m.write dst (m.byte src)

/-- `memmove` of `n` bytes to offset `o` of a page. -/
def store (p : Page) (o n : Nat) (src : Nat → Byte) : Vm Unit :=
  Prog.change .plain fun m => m.write p (overwrite o n src (m.byte p))

/-! ### Page tables -/

abbrev Slot := Page × Fin 512

def loadPte (slot : Slot) : Vm Nat := do return (← Prog.look .plain).pte slot.1 slot.2

def storePte (slot : Slot) (pte : Nat) : Vm Unit := Prog.change .plain fun m => m.setPte slot.1 slot.2 pte

/-- `PX`. -/
def px (va level : Nat) : Fin 512 := ⟨va / 2 ^ (12 + 9 * level) % 512, Nat.mod_lt _ (by decide)⟩

/-- The loop of `walk` in a page table of the given level. -/
def walkFrom (va : Nat) (alloc : Bool) : Nat → Page → Vm (Option Slot)
  | 0, pagetable => return some (pagetable, px va 0)
  | level + 1, pagetable => do
    let pte ← loadPte (pagetable, px va (level + 1))
    if isValid pte then walkFrom va alloc level (pte2pa pte)
    else if alloc then
      match ← kalloc .table with
      | none => return none
      | some next => do
        memset next 0
        storePte (pagetable, px va (level + 1)) (pa2pte next ||| pteV)
        walkFrom va alloc level next
    else return none

def walk (pagetable : Page) (va : Nat) (alloc : Bool) : Vm (Option Slot) :=
  if va ≥ maxva then panic "walk" else walkFrom va alloc 2 pagetable

def walkaddr (pagetable : Page) (va : Nat) : Vm (Option Page) :=
  if va ≥ maxva then return none
  else do
    match ← walk pagetable va false with
    | none => return none
    | some slot => do
      let pte ← loadPte slot
      if !isValid pte then return none
      else if !isUser pte then return none
      else return some (pte2pa pte)

def mapLoop (pagetable : Page) (last perm : Nat) : Nat → Nat → Page → Vm Int
  | 0, _, _ => .stop .spin
  | rounds + 1, a, pa => do
    match ← walk pagetable a true with
    | none => return -1
    | some slot => do
      let pte ← loadPte slot
      if isValid pte then panic "remap"
      else do
        storePte slot (pa2pte pa ||| (perm ||| pteV))
        if a = last then return 0
        else mapLoop pagetable last perm rounds (u64 (a + pgsize)) (pa + 1)

/-- No page from `MAXVA` on gets past `walk`. -/
def mappages (pagetable : Page) (va size : Nat) (pa : Page) (perm : Nat) : Vm Int :=
  mapLoop pagetable (pgrounddown (u64 (va + size + 2 ^ 64 - 1))) perm (2 ^ 26 + 1) (pgrounddown va) pa

def unmapLoop (pagetable : Page) (doFree : Bool) : Nat → Nat → Vm Unit
  | 0, _ => return
  | rounds + 1, a => do
    match ← walk pagetable a false with
    | none => panic "vmunmap: walk"
    | some slot => do
      let pte ← loadPte slot
      if !isValid pte then panic "vmunmap: not mapped"
      else if pteFlags pte = pteV then panic "vmunmap: not a leaf"
      else do
        (if doFree then kfree board (pte2pa pte) else pure ())
        storePte slot 0
        unmapLoop pagetable doFree rounds (u64 (a + pgsize))

def vmunmap (pagetable : Page) (va npages : Nat) (doFree : Bool) : Vm Unit :=
  if va % pgsize ≠ 0 then panic "vmunmap: not aligned"
  else unmapLoop board pagetable doFree ((u64 (va + npages * pgsize) - va + pgsize - 1) / pgsize) va

def uvmcreate : Vm (Option Page) := do
  match ← kalloc .table with
  | none => return none
  | some pagetable => do
    memset pagetable 0
    return some pagetable

/-- `src` is `sz` bytes; `memset(NULL, ...)` is a fault. -/
def uvminit (pagetable kpagetable : Page) (src : Nat → Byte) (sz : Nat) : Vm Unit :=
  if sz ≥ pgsize then panic "inituvm: more than a page"
  else do
    match ← kalloc .user with
    | none => .stop (.fault "uvminit")
    | some mem => do
      memset mem 0
      let _ ← mappages pagetable 0 pgsize mem (pteW ||| pteR ||| pteX ||| pteU)
      let _ ← mappages kpagetable 0 pgsize mem (pteW ||| pteR ||| pteX)
      store mem 0 sz src

def uvmdealloc (pagetable kpagetable : Page) (oldsz newsz : Nat) : Vm Nat :=
  if newsz ≥ oldsz then return oldsz
  else if pgroundup newsz < pgroundup oldsz then do
    let npages := ofInt32 ((pgroundup oldsz - pgroundup newsz) / pgsize)
    vmunmap board kpagetable (pgroundup newsz) npages false
    vmunmap board pagetable (pgroundup newsz) npages true
    return newsz
  else return newsz

def growLoop (pagetable kpagetable : Page) (oldsz newsz : Nat) : Nat → Nat → Vm Nat
  | 0, _ => .stop .spin
  | rounds + 1, a =>
    if a < newsz then do
      match ← kalloc .user with
      | none => do
        let _ ← uvmdealloc board pagetable kpagetable a oldsz
        return 0
      | some mem => do
        memset mem 0
        if (← mappages pagetable a pgsize mem (pteW ||| pteX ||| pteR ||| pteU)) ≠ 0 then
          kfree board mem
          let _ ← uvmdealloc board pagetable kpagetable a oldsz
          return 0
        else if (← mappages kpagetable a pgsize mem (pteW ||| pteX ||| pteR)) ≠ 0 then
          let npages := ofInt32 ((a - oldsz) / pgsize)
          -- plus the page allocated above
          vmunmap board pagetable oldsz (ofInt32 (npages + 1)) true
          vmunmap board kpagetable oldsz npages false
          return 0
        else growLoop pagetable kpagetable oldsz newsz rounds (u64 (a + pgsize))
    else return newsz

def uvmalloc (pagetable kpagetable : Page) (oldsz newsz : Nat) : Vm Nat :=
  if newsz < oldsz then return oldsz
  else
    growLoop board pagetable kpagetable (pgroundup oldsz) newsz ((newsz - pgroundup oldsz) / pgsize + 2)
      (pgroundup oldsz)

/-- `0 .. 511`. Irreducible, for its length. -/
@[irreducible] def indices : List (Fin 512) := List.finRange 512

/-- The loop over the entries of a page in `freewalk`, `kfreewalk` and `kvmfreeusr`, which
differ in what a leaf does to the rest of the loop. -/
def freeTables (leaf : Vm Unit → Vm Unit) (child : Page → Vm Unit) (pagetable : Page) : List (Fin 512) → Vm Unit
  | [] => return
  | i :: is => do
    let pte ← loadPte (pagetable, i)
    if isValid pte && !isLeaf pte then
      child (pte2pa pte)
      storePte (pagetable, i) 0
      freeTables leaf child pagetable is
    else if isValid pte then leaf (freeTables leaf child pagetable is)
    else freeTables leaf child pagetable is

/-- The recursion of `freewalk` and `kfreewalk`. -/
def freeTree (leaf : Vm Unit → Vm Unit) : Nat → Page → Vm Unit
  | 0, _ => .stop .spin
  | depth + 1, pagetable => do
    freeTables leaf (freeTree leaf depth) pagetable indices
    kfree board pagetable

theorem freeTree_succ (leaf : Vm Unit → Vm Unit) (depth : Nat) (pagetable : Page) :
    freeTree board leaf (depth + 1) pagetable =
      freeTables leaf (freeTree board leaf depth) pagetable indices >>= fun _ => kfree board pagetable := rfl

def freewalk (depth : Nat) (pagetable : Page) : Vm Unit :=
  freeTree board (fun _ => panic "freewalk: leaf") depth pagetable

def uvmfree (pagetable sz : Nat) : Vm Unit := do
  (if sz > 0 then vmunmap board pagetable 0 (pgroundup sz / pgsize) true else pure ())
  freewalk board 3 pagetable

/-- `i` and `ki` move together. On failure the pages mapped so far, `ki / PGSIZE` in the
kernel's table and `i / PGSIZE` in the user's, are unmapped. -/
def copyLoop (old new knew : Page) (sz : Nat) : Nat → Nat → Nat → Vm Int
  | 0, _, _ => .stop .spin
  | rounds + 1, i, ki =>
    let err (i ki : Nat) : Vm Int := do
      vmunmap board knew 0 (ki / pgsize) false
      vmunmap board new 0 (i / pgsize) true
      return -1
    if i < sz then do
      match ← walk old i false with
      | none => panic "uvmcopy: pte should exist"
      | some slot => do
        let pte ← loadPte slot
        if !isValid pte then panic "uvmcopy: page not present"
        else do
          match ← kalloc .user with
          | none => err i ki
          | some mem => do
            movePage mem (pte2pa pte)
            if (← mappages new i pgsize mem (pteFlags pte)) ≠ 0 then
              kfree board mem
              err i ki
            else if (← mappages knew ki pgsize mem (noU (pteFlags pte))) ≠ 0 then
              err (u64 (i + pgsize)) ki
            else copyLoop old new knew sz rounds (u64 (i + pgsize)) (u64 (ki + pgsize))
    else return 0

def uvmcopy (old new knew : Page) (sz : Nat) : Vm Int := copyLoop board old new knew sz (sz / pgsize + 2) 0 0

def uvmclear (pagetable : Page) (va : Nat) : Vm Unit := do
  match ← walk pagetable va false with
  | none => panic "uvmclear"
  | some slot => do
    let pte ← loadPte slot
    storePte slot (clearU pte)

/-! ### The kernel page table of a process -/

/-- The sections of a teardown. -/
def Label.teared : Label → Label
  | .kfree pa => .teardown pa
  | l => l

/-- Only frees the pages of the table, not those it maps: it leaves a page at its first leaf. -/
def kfreewalk (depth : Nat) (kpt : Page) : Vm Unit := freeTree board (fun _ => pure ()) depth kpt

/-- `i < PX(2, MAXUVA)`. -/
def kvmfreeusr (kpt : Page) : Vm Unit :=
  freeTables (fun rest => rest) (kfreewalk board 2) kpt (indices.take (px maxuva 2))

/-- The first part of `kvmfree`. -/
def kvmfreeStack (kpt : Page) : Vm Unit := do
  vmunmap board kpt vkstack 1 true
  let pte ← loadPte (kpt, px vkstack 2)
  if isValid pte && !isLeaf pte then kfreewalk board 2 (pte2pa pte) else return

def kvmfree (kpt : Page) (stackFree : Bool) : Vm Unit :=
  Prog.relabel Label.teared do
    (if stackFree then kvmfreeStack board kpt else pure ())
    kvmfreeusr board kpt
    kfree board kpt

def procKpagetable : Vm (Option Page) := do
  match ← kalloc .table with
  | none => return none
  | some kpt => do
    movePage kpt board.kernelPagetable
    -- remap stack and trampoline, because they share the same page table of level 1 and 0
    match ← kalloc .stack with
    | none => do
      kvmfree board kpt true
      return none
    | some pstack => do
      if (← mappages kpt vkstack pgsize pstack (pteR ||| pteW)) ≠ 0 then
        kvmfree board kpt true
        return none
      else return some kpt

/-! ### The user page table of a process, from `kernel/proc.c` -/

def procPagetable (trapframe : Page) : Vm (Option Page) := do
  match ← uvmcreate with
  | none => return none
  | some pagetable => do
    if (← mappages pagetable trampolineVa pgsize board.trampoline (pteR ||| pteX)) < 0 then
      uvmfree board pagetable 0
      return none
    else if (← mappages pagetable trapframeVa pgsize trapframe (pteR ||| pteW)) < 0 then
      vmunmap board pagetable trampolineVa 1 false
      uvmfree board pagetable 0
      return none
    else return some pagetable

def procFreepagetable (pagetable sz : Nat) : Vm Unit := do
  vmunmap board pagetable trampolineVa 1 false
  vmunmap board pagetable trapframeVa 1 false
  uvmfree board pagetable sz

end Farron.Memory
