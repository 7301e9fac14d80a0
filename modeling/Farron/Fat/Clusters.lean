import Farron.Fat.State

/-! Clusters: the FAT, allocation, transfers inside a cluster, the cursor of an entry.

Translated from `kernel/fat32.c`, one definition a function, loops as recursion on
a number of rounds that the loop cannot exceed. -/
namespace Farron
open Resumption
variable (fat : Fat)

/-- `read_fat`; `l` names the section. -/
def readFatAt (l : Label) (cluster : Nat) : Fs Nat :=
  if cluster ≥ fat32Eoc then return cluster
  -- because cluster number starts at 2, not 0
  else if cluster > u32 (fat.dataClusCnt + 1) then return 0
  else do
    let b ← breadAt l (fatSecOfClus fat cluster 1)
    return word32 b (fatOffsetOfClus fat cluster)

def readFat (cluster : Nat) : Fs Nat := readFatAt fat .plain cluster

def writeFat (cluster content : Nat) : Fs Int :=
  if cluster > u32 (fat.dataClusCnt + 1) then return -1
  else do
    bwrite (fatSecOfClus fat cluster 1) (putWord32 (fatOffsetOfClus fat cluster) content)
    return 0

/-- The rest of `zero_clus`: `n` sectors from `sec` on. -/
def zeroSectors : Nat → Nat → Fs Unit
  | 0, _ => return
  | n + 1, sec => do
    bwrite sec (overwrite 0 bsize fun _ => 0)
    zeroSectors n (u32 (sec + 1))

def zeroClus (cluster : Nat) : Fs Unit := zeroSectors fat.bpb.secPerClus (firstSecOfClus fat cluster)

/-- The first zero entry of a FAT sector. -/
def freeEntry (b : Sector) : Option Nat :=
  (List.range (fat.bpb.bytsPerSec / 4)).find? fun j => word32 b (4 * j) == 0

/-- The rest of `alloc_clus`: `n` sectors of the FAT from sector `i` on. -/
def allocScan : Nat → Nat → Fs Nat
  | 0, _ => panic "no clusters"
  | n + 1, i =>
    let sec := u32 (fat.bpb.rsvdSecCnt + i)
    .act (.allocScan i)
      (fun s => match freeEntry fat (s.disk sec) with
        | some j => some (s.setSector sec (putWord32 (4 * j) (fat32Eoc + 7)))
        | none => some s)
      fun s => match freeEntry fat (s.disk sec) with
        | some j => do
          let clus := u32 (i * (fat.bpb.bytsPerSec / 4) + j)
          zeroClus fat clus
          return clus
        | none => allocScan n (i + 1)

def allocClus : Fs Nat := allocScan fat fat.bpb.fatSz 0

def freeClus (cluster : Nat) : Fs Unit := do
  let _ ← writeFat fat cluster 0
  return

/-- The caller's buffer of a transfer: its bytes, and whether a copy of so many bytes
from or to a position in it succeeds (`either_copyin`, `either_copyout`). -/
structure Buf where
  data : Nat → Byte
  ok : Nat → Nat → Bool

/-- The buffer from position `n` on. -/
def Buf.drop (buf : Buf) (n : Nat) : Buf := ⟨fun i => buf.data (n + i), fun p m => buf.ok (n + p) m⟩

/-- A buffer in kernel memory: copies succeed. -/
def Buf.kernel (data : Nat → Byte) : Buf := ⟨data, fun _ _ => true⟩

/-- The loop of `rw_clus`: how many bytes were moved, and those copied out. -/
def rwClusLoop (write : Bool) (buf : Buf) (n : Nat) : Nat → Nat → Nat → Nat → Fs (Nat × List Byte)
  | 0, tot, _, _ => return (tot, [])
  | fuel + 1, tot, off, sec =>
    if tot < n then
      let m := min (bsize - off % bsize) (n - tot)
      if write then
        if buf.ok tot m then do
          bwrite sec (overwrite (off % bsize) m fun i => buf.data (tot + i))
          rwClusLoop write buf n fuel (tot + m) (u32 (off + m)) (u32 (sec + 1))
        else do
          let _ ← bread sec
          return (tot, [])
      else do
        let b ← bread sec
        if buf.ok tot m then
          let r ← rwClusLoop write buf n fuel (tot + m) (u32 (off + m)) (u32 (sec + 1))
          return (r.1, (List.range m).map (fun i => b (off % bsize + i)) ++ r.2)
        else return (tot, [])
    else return (tot, [])

def rwClus (cluster : Nat) (write : Bool) (buf : Buf) (off n : Nat) : Fs (Nat × List Byte) :=
  if u32 (off + n) > fat.bytsPerClus then panic "offset out of range"
  else
    let sec := u32 (firstSecOfClus fat cluster + off / fat.bpb.bytsPerSec)
    rwClusLoop write buf n n 0 (off % fat.bpb.bytsPerSec) sec

/-- The forward loop of `reloc_clus`; false if it gave up at the end of the chain. -/
def relocForward (entry : Ptr) (clusNum : Nat) (alloc : Bool) : Nat → Fs Bool
  | 0 => return true
  | n + 1 => do
    let d ← dirent entry
    if clusNum > d.clusCnt then
      let clus ← readFatAt fat (.relocRead d.curClus) d.curClus
      -- `clus` is an int here
      if int32 clus ≥ fat32Eoc then
        if alloc then
          let new ← allocClus fat
          let _ ← writeFat fat d.curClus new
          assign entry fun d => { d with curClus := new, clusCnt := u32 (d.clusCnt + 1) }
          relocForward entry clusNum alloc n
        else
          assign entry fun d => { d with curClus := d.firstClus, clusCnt := 0 }
          return false
      else
        assign entry fun d => { d with curClus := clus, clusCnt := u32 (d.clusCnt + 1) }
        relocForward entry clusNum alloc n
    else return true

/-- The loop of `reloc_clus` that walks from the first cluster again. -/
def relocRewind (entry : Ptr) (clusNum : Nat) : Nat → Fs Unit
  | 0 => return
  | n + 1 => do
    let d ← dirent entry
    if d.clusCnt < clusNum then
      let next ← readFat fat d.curClus
      if next ≥ fat32Eoc then panic "reloc_clus"
      else
        assign entry fun d => { d with curClus := next, clusCnt := u32 (d.clusCnt + 1) }
        relocRewind entry clusNum n
    else return

/-- `reloc_clus` goes back to the start when the cursor is too far. -/
def relocBack (entry : Ptr) (clusNum : Nat) : Fs Unit := do
  let d ← dirent entry
  if clusNum < d.clusCnt then
    assign entry fun d => { d with curClus := d.firstClus, clusCnt := 0 }
    relocRewind fat entry clusNum clusNum
  else return

/-- For the given entry, relocate the cursor based on `off`: the offset from the new
`cur_clus`, or -1 at the end of the chain. -/
def relocClus (entry : Ptr) (off : Nat) (alloc : Bool) : Fs Int := do
  if ← relocForward fat entry (off / fat.bytsPerClus) alloc (off / fat.bytsPerClus) then
    relocBack fat entry (off / fat.bytsPerClus)
    return (off % fat.bytsPerClus : Nat)
  else return -1

end Farron
