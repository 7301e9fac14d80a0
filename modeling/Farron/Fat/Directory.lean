import Farron.Fat.Files
import Farron.Fat.Names

/-! Directories: writing, reading, updating and removing a file's records.

Callers hold the directory's lock. `enext` fills a `struct dirent` as it goes; here it
returns what it puts there, and its callers assign it: the slot is not valid yet, so
nobody reads it in between. -/
namespace Farron
open Resumption
variable (fat : Fat)

def recordSz : Nat := 32

/-- The slots of a directory whose offsets are 32-bit words. -/
def maxSlots : Nat := 2 ^ 27

/-! ### Writing -/

/-- One record at `off`, the directory growing if need be. -/
def emakeRecord (dp : Ptr) (off : Nat) (de : Bytes) : Fs Unit := do
  let off2 ← relocClus fat dp off true
  let d ← dirent dp
  let _ ← rwClus fat d.curClus true (Buf.kernel de) (ofInt off2) recordSz
  return

/-- The long-name records `i`, `i - 1`, .., 1 from `off` on; the offset after them. -/
def emakeLong (dp : Ptr) (name : CString) (checksum : Byte) : Nat → Nat → Fs Nat
  | 0, off => return off
  | i + 1, off => do
    emakeRecord fat dp off (longRecord name (i + 1) checksum)
    emakeLong dp name checksum i (u32 (off + recordSz))

/-- What `emake` writes at offsets 0 and 32. -/
def emakeDot (dp ep : Ptr) (off : Nat) : Fs Unit := do
  let e ← dirent ep
  emakeRecord fat dp off
    (shortRecord (if off = 0 then dotName else dotDotName) attrDirectory e.firstClus 0)

def emakeFile (dp ep : Ptr) (off : Nat) : Fs Unit := do
  let e ← dirent ep
  let shortname := generateShortname e.filename
  let off ← emakeLong fat dp e.filename (calChecksum shortname) (longCount e.filename) off
  let e ← dirent ep
  emakeRecord fat dp off (shortRecord shortname e.attr e.firstClus e.fileSize)

/-- Write the records of `ep` into the directory `dp` at `off`. -/
def emake (dp ep : Ptr) (off : Nat) : Fs Unit := do
  let d ← dirent dp
  if d.attr &&& attrDirectory = 0 then panic "emake: not dir"
  else if off % recordSz ≠ 0 then panic "emake: not aligned"
  else if off ≤ 32 then emakeDot fat dp ep off
  else emakeFile fat dp ep off

/-! ### Reading -/

/-- What `read_entry_info` takes from a short-name record. -/
structure Info where
  attr : Byte
  firstClus : Nat
  fileSize : Nat
  deriving DecidableEq

def readEntryInfo (de : Bytes) : Info := ⟨de 11, recordClus de, recordSize de⟩

/-- What `enext` leaves behind: its result, `*count`, the name array, and the rest of
`ep` if it read a short-name record. -/
structure Next where
  type : Int
  count : Nat
  name : CString
  info : Option Info

/-- The name array, and the fields and padding up to `first_clus` that a long name may
run into. -/
def nameArray : Nat := fat32MaxFilename + 1
def nameRoom : Nat := 260

/-- The directory's 32 bytes at `off`; `none` at the end of its chain. -/
def enextRead (dp : Ptr) (off : Nat) : Fs (Option Bytes) := do
  let off2 ← relocClus fat dp off false
  if off2 = -1 then return none
  else
    let d ← dirent dp
    let r ← rwClus fat d.curClus false (Buf.kernel fun _ => 0) (ofInt off2) recordSz
    if r.1 ≠ recordSz then return none else return some fun o => r.2.getD o 0

/-- The scan of `enext`: `cnt` deleted slots so far, `open'` while its pointer `count` is
not NULL, `total` what was stored there. A long name may be written as far as `room`. -/
def enextLoop (room : Nat) (dp : Ptr) : Nat → Nat → Nat → Bool → Nat → Bytes → Fs Next
  | 0, _, _, _, _, _ => spin
  | n + 1, off, cnt, open', total, buf => do
    match ← enextRead fat dp off with
    | none => return ⟨-1, total, cstr nameArray buf, none⟩
    | some de =>
      if de 0 = endOfEntry then return ⟨-1, total, cstr nameArray buf, none⟩
      else if de 0 = emptyEntry then enextLoop room dp n (u32 (off + recordSz)) (cnt + 1) open' total buf
      else if cnt ≠ 0 then
        if open' then return ⟨0, cnt, cstr nameArray buf, none⟩ else fault "enext: count"
      else if de 11 = attrLongName then
        let lcnt := (de 0 &&& ~~~lastLongEntry).toNat
        let last := de 0 &&& lastLongEntry ≠ 0
        if last ∧ ¬ open' then fault "enext: count"
        else if lcnt = 0 ∨ room < lcnt * charLongName then fault "enext: filename"
        else
          enextLoop room dp n (u32 (off + recordSz)) cnt (open' && !last) (if last then lcnt + 1 else total)
            (readEntryName ((lcnt - 1) * charLongName) de buf)
      else
        let buf := if open' then readEntryName 0 de buf else buf
        let name := cstr nameArray buf
        if name.length = nameArray then fault "enext: filename"
        else return ⟨1, if open' then 1 else total, name, some (readEntryInfo de)⟩

/-- Read the directory `dp` from `off`; `valid` is the field of the entry to be filled,
`total` the value at `count`. -/
def enextIn (room rounds : Nat) (dp : Ptr) (valid : Int) (off total : Nat) : Fs Next := do
  let d ← dirent dp
  if d.attr &&& attrDirectory = 0 then panic "enext not dir"
  else if valid ≠ 0 then panic "enext ep valid"
  else if off % recordSz ≠ 0 then panic "enext not align"
  else if d.valid ≠ 1 then return ⟨-1, total, [], none⟩
  else enextLoop fat room dp rounds off 0 true total fun _ => 0

def enext (dp : Ptr) (valid : Int) (off total : Nat) : Fs Next :=
  enextIn fat nameRoom (maxSlots + 1) dp valid off total

/-! ### Updating and removing -/

/-- `entry->parent`, dereferenced. -/
def parentOf (d : Dirent) : Fs Ptr :=
  match d.parent with
  | some p => return p
  | none => fault "parent"

/-- `n` bytes of the directory at its cursor's cluster, into zeroed memory. -/
def readAt (dp : Ptr) (off : Int) (n : Nat) : Fs Bytes := do
  let d ← dirent dp
  let r ← rwClus fat d.curClus false (Buf.kernel fun _ => 0) (ofInt off) n
  return fun o => r.2.getD o 0

def writeAt (dp : Ptr) (off : Int) (n : Nat) (data : Bytes) : Fs Unit := do
  let d ← dirent dp
  let _ ← rwClus fat d.curClus true (Buf.kernel data) (ofInt off) n
  return

/-- The number of a file's slots after the first, as `eupdate` and `eremove` take it
from its first byte. -/
def entcntOf (order : Byte) : Nat := (order &&& ~~~lastLongEntry).toNat

/-- The new fields of a short-name record. -/
def updateRecord (d : Dirent) (de : Bytes) : Bytes := fun o =>
  if o = 20 ∨ o = 21 then wordByte d.firstClus (o - 18)
  else if o = 26 ∨ o = 27 then wordByte d.firstClus (o - 26)
  else if 28 ≤ o ∧ o < 32 then wordByte d.fileSize (o - 28)
  else de o

/-- `eupdate` once it has seen that the entry is dirty. -/
def eupdateWrite (entry : Ptr) (d : Dirent) : Fs Unit := do
  let dp ← parentOf d
  let off ← relocClus fat dp d.off false
  let first ← readAt fat dp off 1
  let off ← relocClus fat dp (u32 (d.off + recordSz * entcntOf (first 0))) false
  let de ← readAt fat dp off recordSz
  writeAt fat dp off recordSz (updateRecord d de)
  assign entry fun d => { d with dirty := false }

/-- Write an entry's first cluster and size to its record. Callers hold the parent's
lock. -/
def eupdate (entry : Ptr) : Fs Unit := do
  let d ← dirent entry
  if ¬ d.dirty ∨ d.valid ≠ 1 then return
  else eupdateWrite fat entry d

/-- The loop of `eremove`: `n` slots from `off` on, the cursor already at the first. -/
def eremoveLoop (dp : Ptr) : Nat → Nat → Int → Fs Unit
  | 0, _, _ => return
  | n + 1, off, off2 => do
    writeAt fat dp off2 1 fun _ => emptyEntry
    let off := u32 (off + recordSz)
    let off2 ← relocClus fat dp off false
    eremoveLoop dp n off off2

def eremoveRecords (entry : Ptr) (d : Dirent) : Fs Unit := do
  let dp ← parentOf d
  let off2 ← relocClus fat dp d.off false
  let first ← readAt fat dp off2 1
  eremoveLoop fat dp (entcntOf (first 0) + 1) d.off off2
  assign entry fun d => { d with valid := -1 }

/-- Remove the entry from its parent directory. Callers hold both locks. -/
def eremove (entry : Ptr) : Fs Unit := do
  let d ← dirent entry
  if d.valid ≠ 1 then return
  else eremoveRecords fat entry d

end Farron
