import Farron.Fat.Clusters

/-! Files: reading, writing and truncating an entry.

`eread` and `ewrite` return the source's `int`, `eread` also the bytes it copied
out. Callers hold the entry's lock. -/
namespace Farron
open Resumption
variable (fat : Fat)

def ereadLoop (entry : Ptr) (buf : Buf) (n : Nat) : Nat → Nat → Nat → Fs (Nat × List Byte)
  | 0, tot, _ => return (tot, [])
  | fuel + 1, tot, off => do
    let d ← dirent entry
    if d.curClus < fat32Eoc ∧ tot < n then
      let _ ← relocClus fat entry off false
      let m := min (fat.bytsPerClus - off % fat.bytsPerClus) (n - tot)
      let d ← dirent entry
      let r ← rwClus fat d.curClus false (buf.drop tot) (off % fat.bytsPerClus) m
      if r.1 ≠ m then return (tot, r.2)
      else
        let rest ← ereadLoop entry buf n fuel (tot + m) (u32 (off + m))
        return (rest.1, r.2 ++ rest.2)
    else return (tot, [])

def eread (entry : Ptr) (buf : Buf) (off n : Nat) : Fs (Int × List Byte) := do
  let d ← dirent entry
  if off > d.fileSize ∨ u32 (off + n) < off ∨ d.attr &&& attrDirectory ≠ 0 then return (0, [])
  else
    let n := if u32 (off + n) > d.fileSize then d.fileSize - off else n
    let r ← ereadLoop fat entry buf n n 0 off
    return (int32 r.1, r.2)

/-- The loop of `ewrite`: the number of bytes written. -/
def ewriteLoop (entry : Ptr) (buf : Buf) (n : Nat) : Nat → Nat → Nat → Fs Nat
  | 0, tot, _ => return tot
  | fuel + 1, tot, off =>
    if tot < n then do
      let _ ← relocClus fat entry off true
      let m := min (fat.bytsPerClus - off % fat.bytsPerClus) (n - tot)
      let d ← dirent entry
      let r ← rwClus fat d.curClus true (buf.drop tot) (off % fat.bytsPerClus) m
      if r.1 ≠ m then return tot
      else ewriteLoop entry buf n fuel (tot + m) (u32 (off + m))
    else return tot

/-- `ewrite` gives an entry without a cluster its first one. -/
def ewriteFirst (entry : Ptr) : Fs Unit := do
  let d ← dirent entry
  if d.firstClus = 0 then
    let new ← allocClus fat
    assign entry fun d => { d with curClus := new, firstClus := new, clusCnt := 0, dirty := true }
  else return

/-- `ewrite` of `n` bytes that ended at `off` lets the file grow to `off`. -/
def ewriteSize (entry : Ptr) (off n : Nat) : Fs Unit :=
  if n > 0 then do
    let d ← dirent entry
    if off > d.fileSize then assign entry fun d => { d with fileSize := off, dirty := true }
    else return
  else return

def ewrite (entry : Ptr) (buf : Buf) (off n : Nat) : Fs Int := do
  let d ← dirent entry
  if off > d.fileSize ∨ u32 (off + n) < off ∨ off + n > 0xffffffff
      ∨ d.attr &&& attrReadOnly ≠ 0 then return -1
  else
    -- a first cluster of 0 means file_size is 0 too, which requests off == 0
    ewriteFirst fat entry
    let tot ← ewriteLoop fat entry buf n n 0 off
    ewriteSize entry (u32 (off + tot)) n
    return int32 tot

/-- The loop of `etrunc`. -/
def etruncLoop : Nat → Nat → Fs Unit
  | 0, clus => if 2 ≤ clus ∧ clus < fat32Eoc then spin else return
  | n + 1, clus =>
    if 2 ≤ clus ∧ clus < fat32Eoc then do
      let next ← readFat fat clus
      freeClus fat clus
      etruncLoop n next
    else return

/-- Each round frees an entry of the FAT, so `data_clus_cnt + 2` rounds are enough. -/
def etrunc (entry : Ptr) : Fs Unit := do
  let d ← dirent entry
  etruncLoop fat (fat.dataClusCnt + 2) d.firstClus
  assign entry fun d => { d with fileSize := 0, firstClus := 0, dirty := true }

end Farron
