import Farron.Fat.Directory

/-! The entry cache: locks, references, lookup and creation.

`pid` is the running process's. `eget`, `edup` and the parts of `eput` are the
sections that hold `ecache.lock`. A recursion of `eput` and each long loop has a
bound, `n`; running out of it is `Stop.spin`. -/
namespace Farron
open Resumption
variable (fat : Fat) (pid : Nat)

/-! ### Locks -/

def acquiresleep (e : Ptr) : Fs Unit :=
  .act .plain
    (fun s => if (s.dirents e).lock = none then some (s.setDirent e fun d => { d with lock := some pid })
      else none)
    fun _ => .ret ()

def releasesleep (e : Ptr) : Fs Unit := assign e fun d => { d with lock := none }

def elock : Option Ptr → Fs Unit
  | none => panic "elock"
  | some e => do
    let d ← dirent e
    if d.ref < 1 then panic "elock" else acquiresleep pid e

def eunlock : Option Ptr → Fs Unit
  | none => panic "eunlock"
  | some e => do
    let d ← dirent e
    if d.lock ≠ some pid ∨ d.ref < 1 then panic "eunlock" else releasesleep e

section Locks
variable {pid : Nat} {e : Ptr}

/-- What `elock` waits for, and what it does. -/
theorem run_elock {fs : State} : (elock pid (some e)).run fs =
    if (fs.dirents e).ref < 1 then .stopped (.panic "elock")
    else if (fs.dirents e).lock = none then .done () (fs.setDirent e fun d => { d with lock := some pid })
    else .blocked := by
  rw [elock, Prog.run_bind_done (run_dirent ..)]
  split_ifs with href hlock
  · rfl
  · rw [acquiresleep, Prog.run_act, if_pos hlock]
    rfl
  · rw [acquiresleep, Prog.run_act, if_neg hlock]

theorem run_eunlock (fs : State) (hlock : (fs.dirents e).lock = some pid) (href : ¬ (fs.dirents e).ref < 1) :
    (eunlock pid (some e)).run fs = .done () (fs.setDirent e fun d => { d with lock := none }) := by
  rw [eunlock, Prog.run_bind_done (run_dirent ..), if_neg (by simp [hlock, href])]
  exact run_assign ..

end Locks

/-! ### References -/

namespace State

def addRef (s : State) (e : Ptr) (k : Int) : State := s.setDirent e fun d => { d with ref := d.ref + k }

/-- The cached entry that `eget` answers with. -/
def egetHit (s : State) (parent : Ptr) (name : Option CString) : Option Slot :=
  name.bind fun name => s.lru.find? fun i =>
    (s.dirents (.entry i)).valid == 1 && (s.dirents (.entry i)).parent == some parent &&
      strncmpEq fat32MaxFilename (s.dirents (.entry i)).filename name

/-- The slot that `eget` takes for another file: the least recently used one. -/
def egetFree (s : State) : Option Slot := s.lru.reverse.find? fun i => (s.dirents (.entry i)).ref == 0

/-- A hit's reference, and its parent's if it had none. -/
def egetRef (s : State) (parent : Ptr) (i : Slot) : State :=
  let s' := s.addRef (.entry i) 1
  if (s.dirents (.entry i)).ref = 0 then s'.addRef parent 1 else s'

def egetClear (s : State) (i : Slot) : State :=
  s.setDirent (.entry i) fun d => { d with ref := 1, off := 0, valid := 0, dirty := false }

/-- What `eget` does to the cache. -/
def eget (s : State) (parent : Ptr) (name : Option CString) : State :=
  match s.egetHit parent name with
  | some i => s.egetRef parent i
  | none =>
    match s.egetFree with
    | some i => s.egetClear i
    | none => s

/-- The slot goes to the front of the list. -/
def toFront (s : State) (i : Slot) : State := { s with lru := i :: s.lru.erase i }

end State

/-- A structure `dirent` for the file `name` of `parent`: the cached one, or a slot
whose file has no reference. -/
def eget (parent : Ptr) (name : Option CString) : Fs Ptr :=
  .act .plain (fun s => some (s.eget parent name)) fun s =>
    match s.egetHit parent name with
    | some i => return .entry i
    | none =>
      match s.egetFree with
      | some i => return .entry i
      | none => panic "eget: insufficient ecache"

def edup : Option Ptr → Fs (Option Ptr)
  | none => return none
  | some e => do
    .change .plain fun s => s.addRef e 1
    return some e

/-- This is the entry's last reference, and its file may have to be written back. -/
def State.lastRef (s : State) (e : Ptr) : Bool :=
  e != .root && (s.dirents e).valid != 0 && (s.dirents e).ref == 1

/-- The first section of `eput`. The last reference is kept for the write-back. -/
def State.eputEnter (s : State) (e : Ptr) : State :=
  if s.lastRef e then
    if (s.dirents e).lock = none then
      match e with
      | .entry i => (s.setDirent e fun d => { d with lock := some pid }).toFront i
      | .root => s
    else s
  else s.addRef e (-1)

/-- The write-back of `eput`, and the release of the lock it took. -/
def eputWrite (e : Ptr) : Fs Unit := do
  let d ← dirent e
  -- this means some one has called eremove()
  if d.valid = -1 then etrunc fat e
  else
    elock pid d.parent
    eupdate fat e
    eunlock pid d.parent
  releasesleep e

/-- `entry->ref--` under the lock, and the look at `entry->ref` without it. -/
def eputDrop (e : Ptr) : Fs Bool := do
  .change .plain fun s => s.addRef e (-1)
  let d ← dirent e
  return d.ref == 0

def eput : Nat → Option Ptr → Fs Unit
  | 0, _ => spin
  | _, none => fault "eput"
  | n + 1, some e =>
    .act .plain (fun s => some (s.eputEnter pid e)) fun s =>
      if s.lastRef e then
        if (s.dirents e).lock ≠ none then panic "sched locks"
        else do
          eputWrite fat pid e
          -- once entry->ref is 0, eget() may take the entry away and write its parent
          let d ← dirent e
          if ← eputDrop e then eput n d.parent else return
      else return

/-! ### Lookup -/

/-- `ep->valid = 1`: from now on the entry can be found. -/
def publish (ep : Ptr) : Fs Unit := assign ep fun d => { d with valid := 1 }

/-- What `enext` leaves in the slot. -/
def fillDirent (ep : Ptr) (r : Next) : Fs Unit :=
  assign ep fun d => match r.info with
    | some info =>
      { d with
        filename := r.name
        attr := info.attr
        firstClus := info.firstClus
        fileSize := info.fileSize
        curClus := info.firstClus
        clusCnt := 0 }
    | none => { d with filename := r.name }

/-- The scan of `dirlookup`: whether the file was found, and the offset reached. -/
def dirlookupLoop (dp ep : Ptr) (filename : CString) : Nat → Nat → Nat → Fs (Bool × Nat)
  | 0, _, _ => spin
  | n + 1, off, count => do
    let d ← dirent ep
    let r ← enext fat dp d.valid off count
    fillDirent ep r
    -- `type` is whether the result is not -1, so deleted slots are compared as well
    if r.type = -1 then return (false, off)
    else if strncmpEq fat32MaxFilename filename r.name then return (true, off)
    else dirlookupLoop dp ep filename n (u32 (off + recordSz * r.count)) r.count

/-- `dirlookup` when the cache does not have the file. -/
def dirlookupScan (n : Nat) (dp ep : Ptr) (filename : CString) : Fs (Option Ptr × Option Nat) := do
  let _ ← relocClus fat dp 0 false
  let r ← dirlookupLoop fat dp ep filename (maxSlots + 1) 0 0
  if r.1 then
    let _ ← edup (some dp)
    assign ep fun d => { d with parent := some dp, off := r.2 }
    publish ep
    return (some ep, none)
  else
    eput fat pid n (some ep)
    return (none, some r.2)

/-- The entry `filename` of the directory `dp`, with a reference, and `*poff` if that
was set. -/
def dirlookup (n : Nat) (dp : Ptr) (filename : CString) : Fs (Option Ptr × Option Nat) := do
  let d ← dirent dp
  if d.attr &&& attrDirectory = 0 then panic "dirlookup not DIR"
  else if strncmpEq fat32MaxFilename filename [charDot] then
    let e ← edup (some dp)
    return (e, none)
  else if strncmpEq fat32MaxFilename filename [charDot, charDot] then
    let e ← edup (if dp = .root then some .root else d.parent)
    return (e, none)
  else if d.valid ≠ 1 then return (none, none)
  else
    let ep ← eget dp (some filename)
    let e ← dirent ep
    if e.valid = 1 then return (some ep, none)
    else dirlookupScan fat pid n dp ep filename

/-! ### Creation -/

/-- The clusters of a new directory, and its entries `.` and `..`. -/
def eallocDots (dp ep : Ptr) : Fs Unit := do
  let new ← allocClus fat
  assign ep fun d => { d with curClus := new, firstClus := new }
  emake fat ep ep 0
  emake fat ep dp 32

/-- `ealloc` once the name is known to be new, in the slot `ep`. -/
def eallocNew (dp ep : Ptr) (name : CString) (attr : Byte) (off : Nat) : Fs Unit := do
  elock pid (some ep)
  recycle ep fun d => { d with attr := attr, fileSize := 0, firstClus := 0 }
  let _ ← edup (some dp)
  assign ep fun d =>
    { d with
      parent := some dp
      off := off
      clusCnt := 0
      curClus := 0
      dirty := false
      filename := name.take fat32MaxFilename }
  if attr = attrDirectory then
    assign ep fun d => { d with attr := d.attr ||| attrDirectory }
    eallocDots fat dp ep
  else
    assign ep fun d => { d with attr := d.attr ||| attrArchive }
  emake fat dp ep off
  publish ep
  eunlock pid (some ep)

/-- The entry `name` of `dp`, made if it does not exist. Callers hold `dp`'s lock. -/
def ealloc (n : Nat) (dp : Ptr) (name : CString) (attr : Byte) : Fs (Option Ptr) := do
  let d ← dirent dp
  if d.attr &&& attrDirectory = 0 then panic "ealloc not dir"
  else if d.valid ≠ 1 then return none
  else
    match formatname name with
    | none => return none
    | some name =>
      let r ← dirlookup fat pid n dp name
      match r.1 with
      | some ep => return some ep
      | none =>
        -- `off` is 0 unless dirlookup has set it
        let ep ← eget dp (some name)
        eallocNew fat pid dp ep name attr (r.2.getD 0)
        return some ep

/-! ### Paths -/

def charSlash : Byte := 0x2f

/-- The next element of a path, and the path after it. -/
def skipelem (path : CString) : Option (CString × CString) :=
  let path := path.dropWhile (· == charSlash)
  if path = [] then none
  else
    some ((path.takeWhile (· != charSlash)).take fat32MaxFilename,
      (path.dropWhile (· != charSlash)).dropWhile (· == charSlash))

/-- The loop of `lookup_path`; `name` is the element last taken. -/
def lookupPathLoop (n : Nat) (parent : Bool) : Nat → Ptr → CString → CString → Fs (Option (Ptr × CString))
  | 0, _, _, _ => spin
  | m + 1, entry, path, name =>
    match skipelem path with
    | none =>
      if parent then do
        eput fat pid n (some entry)
        return none
      else return some (entry, name)
    | some (name, path) => do
      elock pid (some entry)
      let d ← dirent entry
      if d.attr &&& attrDirectory = 0 then
        eunlock pid (some entry)
        eput fat pid n (some entry)
        return none
      else if parent ∧ path = [] then
        eunlock pid (some entry)
        return some (entry, name)
      else
        let r ← dirlookup fat pid n entry name
        eunlock pid (some entry)
        eput fat pid n (some entry)
        match r.1 with
        | none => return none
        | some next => lookupPathLoop n parent m next path name

/-- The entry of a path, or its directory and last element. -/
def lookupPath (n : Nat) (cwd : Ptr) (path : CString) (parent : Bool) : Fs (Option (Ptr × CString)) := do
  if path = [] then return none
  else
    let start := if path.head? = some charSlash then Ptr.root else cwd
    let _ ← edup (some start)
    lookupPathLoop fat pid n parent (path.length + 1) start path []

def ename (n : Nat) (cwd : Ptr) (path : CString) : Fs (Option Ptr) := do
  let r ← lookupPath fat pid n cwd path false
  return r.map (·.1)

def enameparent (n : Nat) (cwd : Ptr) (path : CString) : Fs (Option (Ptr × CString)) :=
  lookupPath fat pid n cwd path true

end Farron
