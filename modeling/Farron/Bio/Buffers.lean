import Farron.Kernel.Stop
import Farron.Resumption.Interleave

/-! The buffer cache of `kernel/bio.c`.

What is done under `bcache.lock` is one section, and so are the transfer of a sector and
each change of a buffer by the process that holds it. A sleep lock is the process that
holds it. `log` is history, read by no function: what was written to the disk, the
last first. -/
namespace Farron.Bio
open Resumption

/-- `NBUF`. -/
def nbuf : Nat := 30

/-- A device and a sector of it. -/
abbrev Site := UInt32 × UInt32

/-- `data[BSIZE]`. -/
abbrev Block := Fin 512 → UInt8

/-- `struct buf`; `site` is `dev` and `sectorno`. -/
structure Buf (ι : Type) where
  valid : Bool
  site : Site
  lock : Option ι
  refcnt : Nat
  data : Block

/-- `bcache` and the disk; `lru` is the list of the buffers from `head.next` on. -/
structure Bcache (ι : Type) where
  bufs : Fin nbuf → Buf ι
  lru : List (Fin nbuf)
  disk : Site → Block
  log : List (Site × Block)

/-- The block written last to a site, or its first content. -/
def latest (first : Site → Block) (log : List (Site × Block)) (p : Site) : Block :=
  ((log.find? fun e => e.1 = p).map Prod.snd).getD (first p)

variable {ι : Type} [DecidableEq ι]

abbrev Code (ι : Type) := Prog Unit Stop (Bcache ι)

namespace Bcache
variable (s : Bcache ι) (b : Fin nbuf)

def setBuf (f : Buf ι → Buf ι) : Bcache ι := { s with bufs := Function.update s.bufs b (f (s.bufs b)) }

/-- The buffer of a site: the first of the list. -/
def cached (p : Site) : Option (Fin nbuf) := s.lru.find? fun b => (s.bufs b).site = p

/-- The last buffer of the list that is not in use. -/
def unused : Option (Fin nbuf) := s.lru.reverse.find? fun b => (s.bufs b).refcnt = 0

/-- What `bget` does under the lock: the buffer it picks and the cache after it. -/
def get (p : Site) : Option (Fin nbuf × Bcache ι) :=
  match s.cached p with
  | some b => some (b, s.setBuf b fun x => { x with refcnt := x.refcnt + 1 })
  | none => match s.unused with
    | some b => some (b, s.setBuf b fun x => { x with site := p, valid := false, refcnt := 1 })
    | none => none

/-- What `brelse` does under the lock. -/
def put : Bcache ι :=
  let s' := s.setBuf b fun x => { x with refcnt := x.refcnt - 1 }
  if (s'.bufs b).refcnt = 0 then { s' with lru := b :: s'.lru.erase b } else s'

/-- `disk_read`. -/
def diskRead : Bcache ι := s.setBuf b fun x => { x with data := s.disk x.site }

/-- `disk_write`. -/
def diskWrite : Bcache ι :=
  { s with
    disk := Function.update s.disk (s.bufs b).site (s.bufs b).data
    log := ((s.bufs b).site, (s.bufs b).data) :: s.log }

end Bcache

variable (i : ι)

def acquiresleep (b : Fin nbuf) : Code ι Unit :=
  .act () (fun s => if (s.bufs b).lock = none then some (s.setBuf b fun x => { x with lock := some i }) else none)
    fun _ => .ret ()

def releasesleep (b : Fin nbuf) : Code ι Unit := .change () fun s => s.setBuf b fun x => { x with lock := none }

def holdingsleep (b : Fin nbuf) : Code ι Bool := .act () some fun s => .ret (decide ((s.bufs b).lock = some i))

def bget (p : Site) : Code ι (Fin nbuf) :=
  .act () (fun s => some ((s.get p).elim s Prod.snd)) fun s =>
    match s.get p with
    | some (b, _) => do
      acquiresleep i b
      return b
    | none => .stop (.panic "bget: no buffers")

def bread (p : Site) : Code ι (Fin nbuf) := do
  let b ← bget i p
  let s ← .look ()
  if (s.bufs b).valid = false then
    .change () fun s => s.diskRead b
    .change () fun s => s.setBuf b fun x => { x with valid := true }
    return b
  else return b

def bwrite (b : Fin nbuf) : Code ι Unit := do
  if ← holdingsleep i b then
    .change () fun s => s.diskWrite b
  else .stop (.panic "bwrite")

def brelse (b : Fin nbuf) : Code ι Unit := do
  if ← holdingsleep i b then
    releasesleep b
    .change () fun s => s.put b
  else .stop (.panic "brelse")

/-! ### The processes -/

/-- A buffer that a process got for a site, and whether it has changed it since it last
wrote it. -/
structure Lease where
  site : Site
  dirty : Bool

abbrev Leases := Fin nbuf → Option Lease

inductive Call
  | bread (p : Site)
  | edit (b : Fin nbuf) (f : Block → Block)
  | bwrite (b : Fin nbuf)
  | brelse (b : Fin nbuf)

/-- A process changes only the buffers it holds, and writes them before it gives them back. -/
def Call.enabled (l : Leases) : Call → Prop
  | .bread _ => True
  | .edit b _ | .bwrite b => l b ≠ none
  | .brelse b => ∃ p, l b = some ⟨p, false⟩

/-- The leases after a buffer has become dirty or clean. -/
def Leases.mark (l : Leases) (b : Fin nbuf) (dirty : Bool) : Leases :=
  Function.update l b ((l b).map fun x => { x with dirty })

def Call.body (l : Leases) : Call → Code ι Leases
  | .bread p => do
    let b ← Bio.bread i p
    return Function.update l b (some ⟨p, false⟩)
  | .edit b f => do
    .change () fun s => s.setBuf b fun x => { x with data := f x.data }
    return l.mark b true
  | .bwrite b => do
    Bio.bwrite i b
    return l.mark b false
  | .brelse b => do
    Bio.brelse i b
    return Function.update l b none

def client (ι : Type) [DecidableEq ι] : Client Unit Stop (Bcache ι) ι Leases Call where
  enabled := Call.enabled
  body i l c := c.body i l
  pass _ _ _ _ := False

/-- `dev` and `sectorno` of a buffer that was never used, `~0`. -/
def noSite : Site := (~~~0, ~~~0)

/-- What `binit` leaves: unused buffers, the last one at the head of the list. -/
def binit (disk : Site → Block) (data : Fin nbuf → Block) : Bcache ι where
  bufs b := { valid := false, site := noSite, lock := none, refcnt := 0, data := data b }
  lru := (List.finRange nbuf).reverse
  disk
  log := []

def start (disk : Site → Block) (data : Fin nbuf → Block) : Config Unit Stop (Bcache ι) ι Leases where
  shared := binit disk data
  thread _ := .ret fun _ => none

end Farron.Bio
