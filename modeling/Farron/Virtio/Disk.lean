import Farron.Kernel.Sleep

/-! The virtio disk driver of `kernel/virtio_disk.c`, and its device.

The threads `ι` are processes, interrupt handlers and the device. `disk` and the field
`disk` of the buffers are what `vdisk_lock` protects; the device reads and writes the rings
whenever it likes, and an interrupt may come at any time, so that the registers which
notify the device and acknowledge its interrupt are left out. What a process writes
under the lock to memory that nobody else looks at meanwhile is one section. `subs`,
`dones` and `cleared` are history, read by no function. -/
namespace Farron.Virtio
open Resumption

/-- `NUM`, the number of descriptors. -/
def num : Nat := 8

/-- `VRING_DESC_F_NEXT`. -/
def flagNext : Nat := 1

/-- `VRING_DESC_F_WRITE`. -/
def flagWrite : Nat := 2

/-- What a descriptor may point to: the header on a process's stack, the data of a buffer,
or `info[i].status`. -/
inductive Addr (ι β : Type)
  | null
  | header (i : ι)
  | data (b : β)
  | status (i : Nat)

/-- `struct VRingDesc`. -/
structure Desc (ι β : Type) where
  addr : Addr ι β
  len : Nat
  flags : Nat
  next : Nat

/-- `struct virtio_blk_outhdr`. -/
structure Header where
  type : Nat
  reserved : Nat
  sector : Nat

/-- `disk.info[i]`. -/
structure Info (β : Type) where
  b : Option β
  status : Nat

structure Disk (ι β : Type) where
  desc : Nat → Desc ι β
  /-- `avail[1]` -/
  availIdx : Nat
  /-- `avail[2 ..]` -/
  avail : Nat → Nat
  /-- `used->id` -/
  usedId : Nat
  /-- `used->elems[..].id` -/
  elems : Nat → Nat
  free : Nat → Bool
  usedIdx : Nat
  info : Nat → Info β
  /-- `b->disk` -/
  busy : β → Bool
  sectorno : β → Nat
  /-- `b->lock` -/
  lock : β → Option ι
  /-- `buf0` -/
  header : ι → Header
  /-- How far the device has looked in `avail`. -/
  seen : Nat
  /-- The chains the device works on, each with its number. -/
  pending : List (Nat × Nat)
  /-- The chains given to the device, each with its buffer. -/
  subs : List (Nat × β)
  /-- The numbers of the chains that the device has completed. -/
  dones : List Nat
  /-- The buffers that the interrupt handler has found done. -/
  cleared : List β

/-- The channels `&disk.free[0]` and `b`. -/
inductive Chan (β : Type)
  | free
  | buf (b : β)
  deriving DecidableEq

/-- A 16-bit word. -/
def uint16 (n : Nat) : Nat := n % 2 ^ 16

variable {ι β : Type} [DecidableEq ι] [DecidableEq β]

abbrev Code (ι β : Type) := Kernel Unit ι (Chan β) (Disk ι β)

namespace Disk
variable (d : Disk ι β)

def setDesc (i : Nat) (x : Desc ι β) : Disk ι β := { d with desc := Function.update d.desc i x }

def setInfo (i : Nat) (x : Info β) : Disk ι β := { d with info := Function.update d.info i x }

/-- The first free descriptor. -/
def firstFree : Option Nat := (List.range num).find? fun i => d.free i

/-- What `alloc_desc` leaves. -/
def allocDesc : Disk ι β :=
  match d.firstFree with
  | some i => { d with free := Function.update d.free i false }
  | none => d

def freeDesc (i : Nat) : Disk ι β :=
  { d with
    desc := Function.update d.desc i { d.desc i with addr := .null }
    free := Function.update d.free i true }

/-- The three descriptors of a request. -/
def format (p : ι) (b : β) (write : Bool) (sector i j k : Nat) : Disk ι β :=
  let d := { d with header := Function.update d.header p ⟨if write then 1 else 0, 0, sector⟩ }
  let d := d.setDesc i ⟨.header p, 16, flagNext, j⟩
  let d := d.setDesc j ⟨.data b, bsize, (if write then 0 else flagWrite) ||| flagNext, k⟩
  let d := d.setInfo i { d.info i with status := 0 }
  d.setDesc k ⟨.status i, 1, flagWrite, 0⟩

/-- The buffer is recorded for `virtio_disk_intr`, and the head of the chain put into the
ring behind those that the device may look at. -/
def record (b : β) (i : Nat) : Disk ι β :=
  let d := { d with busy := Function.update d.busy b true }
  let d := d.setInfo i { d.info i with b := some b }
  { d with avail := Function.update d.avail (d.availIdx % num) i }

/-- `avail[1] = avail[1] + 1`: the device may look at the chain. -/
def publish (b : β) (i : Nat) : Disk ι β := { d with availIdx := uint16 (d.availIdx + 1), subs := d.subs ++ [(i, b)] }

/-- `info[i].b = 0`. -/
def forget (i : Nat) : Disk ι β := d.setInfo i { d.info i with b := none }

/-- `b->disk = 0`, by the interrupt handler. -/
def clear (b : β) : Disk ι β := { d with busy := Function.update d.busy b false, cleared := d.cleared ++ [b] }

/-- Follow the descriptors of a chain. -/
def chainFrom : Nat → Nat → List Nat
  | 0, _ => []
  | n + 1, i => i :: if (d.desc i).flags &&& flagNext ≠ 0 then chainFrom n (d.desc i).next else []

/-- The chain of descriptors that starts here. -/
def chain (i : Nat) : List Nat := d.chainFrom num i

/-- `acquiresleep(&b->lock)`, once it is free. -/
def acquired (p : ι) (b : β) : Option (Disk ι β) :=
  if d.lock b = none then some { d with lock := Function.update d.lock b (some p) } else none

def released (b : β) : Disk ι β := { d with lock := Function.update d.lock b none }

/-! ### The device -/

/-- The device takes the next chain, if there is one. -/
def take : Disk ι β :=
  if d.seen ≠ d.availIdx then
    { d with
      seen := uint16 (d.seen + 1)
      pending := d.pending ++ [(d.dones.length + d.pending.length, d.avail (d.seen % num))] }
  else d

/-- The status byte is written where the last descriptor of the chain points. -/
def writeStatus (head : Nat) : Disk ι β :=
  match (d.desc ((d.chain head).getLastD head)).addr with
  | .status i => d.setInfo i { d.info i with status := 0 }
  | _ => d

/-- The device completes one of the chains it works on, with status 0. -/
def complete (m : Nat) : Disk ι β :=
  match d.pending[m]? with
  | some (number, head) =>
    { d.writeStatus head with
      elems := Function.update d.elems (d.usedId % num) head
      usedId := uint16 (d.usedId + 1)
      pending := d.pending.eraseIdx m
      dones := d.dones ++ [number] }
  | none => d

end Disk

/-! ### The driver -/

variable (p : ι) (proc : List ι) (rounds : Nat)

def allocDesc : Code ι β (Option Nat) :=
  .act () (fun w => some { w with data := w.data.allocDesc }) fun w => .ret w.data.firstFree

def freeDesc (i : Nat) : Code ι β Unit := do
  let d ← fetch
  if num ≤ i then .stop (.panic "virtio_disk_intr 1")
  else if d.free i then .stop (.panic "virtio_disk_intr 2")
  else
    update () fun d => d.freeDesc i
    wakeup .free proc

/-- The loop of `free_chain`. Each round frees a descriptor, so that after `num` of them
`free_desc` cannot but panic. -/
def freeChain : Nat → Nat → Code ι β Unit
  | 0, _ => .stop (.panic "virtio_disk_intr 2")
  | n + 1, i => do
    freeDesc proc i
    let d ← fetch
    if (d.desc i).flags &&& flagNext ≠ 0 then freeChain n (d.desc i).next else return

/-- Three descriptors or none; the loop is unrolled. -/
def alloc3Desc : Code ι β (Option (Nat × Nat × Nat)) := do
  match ← allocDesc with
  | none => return none
  | some i => match ← allocDesc with
    | none => do
      freeDesc proc i
      return none
    | some j => match ← allocDesc with
      | none => do
        freeDesc proc i
        freeDesc proc j
        return none
      | some k => return some (i, j, k)

/-- The loop that waits for descriptors; its rounds are bounded. -/
def waitDescs : Nat → Code ι β (Nat × Nat × Nat)
  | 0 => .stop .spin
  | n + 1 => do
    match ← alloc3Desc proc with
    | some idx => return idx
    | none => do
      sleep p .free
      waitDescs n

/-- The loop that waits for `virtio_disk_intr`. -/
def waitDone (b : β) : Nat → Code ι β Unit
  | 0 => .stop .spin
  | n + 1 => do
    let d ← fetch
    if d.busy b then
      sleep p (.buf b)
      waitDone b n
    else return

def virtioDiskRw (b : β) (write : Bool) : Code ι β Unit := do
  let d ← fetch
  acquire p
  let (i, j, k) ← waitDescs p proc rounds
  update () fun d' => d'.format p b write (d.sectorno b) i j k
  update () fun d => d.record b i
  update () fun d => d.publish b i
  waitDone p b rounds
  update () fun d => d.forget i
  freeChain proc num i
  release p

/-- The loop of `virtio_disk_intr`. -/
def intrLoop : Nat → Code ι β Unit
  | 0 => .stop .spin
  | n + 1 => do
    let d ← fetch
    if d.usedIdx % num ≠ d.usedId % num then
      let d ← fetch
      let id := d.elems d.usedIdx
      if num ≤ id then .stop (.fault "virtio_disk_intr: info")
      else if (d.info id).status ≠ 0 then .stop (.panic "virtio_disk_intr status")
      else match (d.info id).b with
        | none => .stop (.fault "virtio_disk_intr: b")
        | some b => do
          update () fun d => d.clear b
          wakeup (.buf b) proc
          update () fun d => { d with usedIdx := (d.usedIdx + 1) % num }
          intrLoop n
    else return

def virtioDiskIntr : Code ι β Unit := do
  acquire p
  intrLoop proc rounds
  release p

/-! ### The threads -/

/-- A process has locked some buffers. -/
inductive Role (β : Type)
  | process (held : β → Bool)
  | interrupt
  | device

inductive Call (β : Type)
  | lock (b : β)
  | unlock (b : β)
  | rw (b : β) (write : Bool)
  | intr
  | take
  | complete (m : Nat)

/-- `virtio_disk_rw` is called on buffers that the caller has locked. -/
def Call.enabled : Role β → Call β → Prop
  | .process _, .lock _ => True
  | .process held, .unlock b | .process held, .rw b _ => held b = true
  | .interrupt, .intr | .device, .take | .device, .complete _ => True
  | _, _ => False

def Call.body (l : Role β) : Call β → Code ι β (Role β)
  | .lock b => do
    .act () (fun w => (w.data.acquired p b).map fun d => { w with data := d }) fun _ => .ret ()
    return match l with
      | .process held => .process (Function.update held b true)
      | l => l
  | .unlock b => do
    update () fun d => d.released b
    return match l with
      | .process held => .process (Function.update held b false)
      | l => l
  | .rw b write => do
    virtioDiskRw p proc rounds b write
    return l
  | .intr => do
    virtioDiskIntr p proc rounds
    return l
  | .take => do
    update () Disk.take
    return l
  | .complete m => do
    update () fun d => d.complete m
    return l

def client : Client Unit Stop (World ι (Chan β) (Disk ι β)) ι (Role β) (Call β) where
  enabled := Call.enabled
  body p l c := c.body p proc rounds l
  pass _ _ _ _ := False

/-- What `virtio_disk_init` leaves: all descriptors are free, the rings are zero, no buffer is
locked. -/
def Disk.init (sectorno : β → Nat) (header : ι → Header) : Disk ι β where
  desc _ := ⟨.null, 0, 0, 0⟩
  availIdx := 0
  avail _ := 0
  usedId := 0
  elems _ := 0
  free i := decide (i < num)
  usedIdx := 0
  info _ := ⟨none, 0⟩
  busy _ := false
  sectorno
  lock _ := none
  header
  seen := 0
  pending := []
  subs := []
  dones := []
  cleared := []

inductive Kind
  | process
  | interrupt
  | device

/-- No process has locked a buffer yet. -/
def Kind.role : Kind → Role β
  | .process => .process fun _ => false
  | .interrupt => .interrupt
  | .device => .device

def start (procs : ι → Proc ι (Chan β)) (sectorno : β → Nat) (header : ι → Header) (kind : ι → Kind) :
    Config Unit Stop (World ι (Chan β) (Disk ι β)) ι (Role β) where
  shared := ⟨procs, none, Disk.init sectorno header⟩
  thread i := .ret (kind i).role

end Farron.Virtio
