import Farron.Intr.Code
import Farron.Proc.HandOver

/-! How deep interrupts are disabled, and by whom.

The log tells how many calls of `push_off` a hart has not undone, and how many a thread has in
force, with the interrupt bit that the outermost one found (`openOn`, `openBy`, `foundBy`). `Inv`
says that the counter of a hart is both, that the locks are handed over as in `HandOver`, and that
`intena` is the bit found by the thread that the hart executes. Each section is shown to keep it. -/
namespace Farron.Intr
open Resumption Harts
variable {H ι κ : Type} [DecidableEq H] [DecidableEq ι] [DecidableEq κ]

/-! ### The log -/

/-- The calls of `push_off` on hart `h` that no `pop_off` has undone. -/
def openOn (h : H) : List (Event H ι) → Nat
  | [] => 0
  | .push h' _ _ :: log => openOn h log + if h = h' then 1 else 0
  | .pop h' _ _ :: log => openOn h log - if h = h' then 1 else 0
  | .context _ :: log => openOn h log

/-- The calls of `push_off` in force for a thread. A new process takes over one, of the scheduler
that switches to it. -/
def openBy (x : Thread H ι) : List (Event H ι) → Nat
  | [] =>
    match x with
    | .sched _ => 0
    | .proc _ => 1
  | .push _ y _ :: log => openBy x log + if x = y then 1 else 0
  | .pop _ y _ :: log => openBy x log - if x = y then 1 else 0
  | .context p :: log => if x = .proc p then 1 else openBy x log

/-- The bit that the outermost of them found, if it was a call of the thread. -/
def foundBy (x : Thread H ι) : List (Event H ι) → Option Bool
  | [] => none
  | .push _ y old :: log => if x = y ∧ openBy x log = 0 then some old else foundBy x log
  | .pop _ _ _ :: log => foundBy x log
  | .context p :: log => if x = .proc p then none else foundBy x log

/-- Wherever the outermost `push_off` of a process was undone, interrupts were then on if and only if
it had found them on. -/
def Restored : List (Event H ι) → Prop
  | [] => True
  | .pop _ x sie :: log => (∀ p b, x = .proc p → openBy x log = 1 → foundBy x log = some b → sie = b) ∧ Restored log
  | _ :: log => Restored log

/-! ### The invariant -/

/-- The token of a thread: where it stands in the hand-over, its locks, the other calls of `push_off` it
has to undo, and what `sched` keeps of `intena`. -/
structure Nest (ι κ : Type) where
  mode : Mode ι
  held : List (Lock ι κ)
  bare : Nat
  saved : Bool

namespace Nest

def depth (n : Nest ι κ) : Nat := n.held.length + n.bare

def token (n : Nest ι κ) : Harts.Token ι κ := ⟨n.mode, n.held, .none, []⟩

/-- The thread is not switched away, and not about to be restored. -/
def Active (n : Nest ι κ) : Prop := n.mode ≠ .down ∧ n.mode ≠ .gone

/-- The thread is between two switches. -/
def Busy (x : Thread H ι) (n : Nest ι κ) : Prop :=
  n.mode = .loop ∨ n.mode = .run ∨ ∃ p d, x = .proc p ∧ n.mode = .leaving d ∧ .proc p ∈ n.held

omit [DecidableEq H] [DecidableEq ι] [DecidableEq κ] in
theorem Busy.active {x : Thread H ι} {n : Nest ι κ} (h : n.Busy x) : n.Active := by
  rcases h with h | h | ⟨p, d, -, h, -⟩ <;> simp [Active, h]

end Nest

def tokens (N : Thread H ι → Nest ι κ) (x : Thread H ι) : Harts.Token ι κ := (N x).token

/-- The machine, with only the locks that are held for counters. -/
def plain (m : Machine H ι κ) (T : Thread H ι → Harts.Token ι κ) : Machine H ι κ :=
  { m with cpus := fun h => ⟨(m.cpus h).proc, (T (m.exec h)).held.length, false, false⟩ }

structure Inv (w : Traced H ι κ) (N : Thread H ι → Nest ι κ) : Prop where
  handOver : HandOver (plain w.toMachine (tokens N)) (tokens N)
  noff : ∀ h, (w.cpus h).noff = (N (w.exec h)).depth
  sie : ∀ h, 0 < (w.cpus h).noff → (w.cpus h).sie = false
  unmatched : ∀ h, openOn h w.log = (w.cpus h).noff
  depth : ∀ x, openBy x w.log = (N x).depth
  bare : ∀ x, (∀ h, w.exec h ≠ x) → (N x).bare = 0
  intena : ∀ h p b, w.exec h = .proc p → (N (.proc p)).Active → 0 < (N (.proc p)).depth → foundBy (.proc p) w.log = some b →
    (w.cpus h).intena = b
  saved : ∀ p b, (N (.proc p)).mode = .down → foundBy (.proc p) w.log = some b → (N (.proc p)).saved = b
  first : ∀ p, (N (.proc p)).mode = .gone → w.fresh p = true → foundBy (.proc p) w.log = none
  restored : Restored w.log

variable {w w' : Traced H ι κ} {N : Thread H ι → Nest ι κ} {x : Thread H ι} {n : Nest ι κ}

omit [DecidableEq κ] in
theorem tokens_update (N : Thread H ι → Nest ι κ) (x : Thread H ι) (n : Nest ι κ) :
    tokens (Function.update N x n) = Function.update (tokens N) x n.token := by
  funext y
  by_cases hy : y = x
  · subst hy
    simp [tokens]
  · simp [tokens, hy]

omit [DecidableEq H] [DecidableEq ι] [DecidableEq κ] in
/-- The hand-over does not depend on the counters. -/
theorem handOver_plain {m m' : Machine H ι κ} {T : Thread H ι → Harts.Token ι κ} (hH : HandOver m T) (hexec : m'.exec = m.exec)
    (hlocks : m'.locks = m.locks) (hprocs : m'.procs = m.procs) (hfresh : m'.fresh = m.fresh)
    (hproc : ∀ h, (m'.cpus h).proc = (m.cpus h).proc) : HandOver (plain m' T) T := by
  constructor
  · intro h
    show m'.exec h = _ ∨ ∃ p, m'.exec h = _ ∧ _
    rw [hexec]
    exact hH.exec h
  · show ∀ h h', m'.exec h = m'.exec h' → h = h'
    rw [hexec]
    exact hH.alone
  · show ∀ l h, m'.locks l = some h ↔ l ∈ (T (m'.exec h)).held
    rw [hexec, hlocks]
    exact hH.locks
  · show ∀ h, (T (m'.exec h)).held.Nodup
    rw [hexec]
    exact hH.nodup
  · exact fun h => rfl
  · exact fun h _ => rfl
  · intro h
    refine (hH.sched h).of_eq hexec (hproc h) fun p _ _ => ?_
    show (m'.procs p).state = _
    rw [hprocs]
  · intro p
    refine (hH.proc p).of_eq hexec ?_ ?_
    · show (m'.procs p).state = _
      rw [hprocs]
    · show m'.fresh p = _
      rw [hfresh]

omit [DecidableEq κ] in
/-- A section of the thread that its hart executes, which changes its own counters only. -/
theorem Inv.here {c : Cpu ι} (hI : Inv w N) (hx : w.thread = x)
    (hH : HandOver (plain w'.toMachine (tokens (Function.update N x n))) (tokens (Function.update N x n)))
    (hexec : w'.exec = w.exec) (hfresh : w'.fresh = w.fresh) (hcpus : w'.cpus = Function.update w.cpus w.hart c)
    (hactive : n.Active) (hnoff : c.noff = n.depth) (hsie : 0 < n.depth → c.sie = false)
    (hunmatched : ∀ h, openOn h w'.log = if h = w.hart then n.depth else openOn h w.log)
    (hdepth : ∀ y, openBy y w'.log = if y = x then n.depth else openBy y w.log)
    (hbegan : ∀ y, y ≠ x → foundBy y w'.log = foundBy y w.log)
    (hintena : ∀ p b, x = .proc p → 0 < n.depth → foundBy x w'.log = some b → c.intena = b) (hrestored : Restored w'.log) :
    Inv w' (Function.update N x n) := by
  have hx : w.exec w.hart = x := hx
  have hhere : ∀ h, w.exec h = x ↔ h = w.hart := by
    intro h
    refine ⟨fun he => hI.handOver.alone h w.hart (he.trans hx.symm), ?_⟩
    rintro rfl
    exact hx
  constructor
  · exact hH
  · intro h
    rw [hexec, hcpus]
    by_cases hh : h = w.hart
    · rw [(hhere h).mpr hh, hh]
      simpa using hnoff
    · rw [Function.update_of_ne hh, Function.update_of_ne (mt (hhere h).mp hh)]
      exact hI.noff h
  · intro h
    rw [hcpus]
    by_cases hh : h = w.hart
    · rw [hh, Function.update_self, hnoff]
      exact hsie
    · rw [Function.update_of_ne hh]
      exact hI.sie h
  · intro h
    rw [hcpus, hunmatched]
    by_cases hh : h = w.hart
    · rw [hh, Function.update_self, if_pos rfl, hnoff]
    · rw [Function.update_of_ne hh, if_neg hh]
      exact hI.unmatched h
  · intro y
    rw [hdepth]
    by_cases hy : y = x
    · rw [hy, Function.update_self, if_pos rfl]
    · rw [Function.update_of_ne hy, if_neg hy]
      exact hI.depth y
  · intro y hy
    rw [hexec] at hy
    have hne : y ≠ x := by
      rintro rfl
      exact hy _ hx
    rw [Function.update_of_ne hne]
    exact hI.bare y hy
  · intro h p b he hact hpos hb
    rw [hexec] at he
    rw [hcpus]
    by_cases hp : .proc p = x
    · have hh := (hhere h).mp (he.trans hp)
      rw [hp, Function.update_self] at hpos
      rw [hp] at hb
      rw [hh, Function.update_self]
      exact hintena p b hp.symm hpos hb
    · have hh : h ≠ w.hart := fun hh => hp (he.symm.trans ((hhere h).mpr hh))
      rw [Function.update_of_ne hp] at hact hpos
      rw [hbegan _ hp] at hb
      rw [Function.update_of_ne hh]
      exact hI.intena h p b he hact hpos hb
  · intro p b hmode hb
    by_cases hp : .proc p = x
    · rw [hp, Function.update_self] at hmode
      exact absurd hmode hactive.1
    · rw [Function.update_of_ne hp] at hmode ⊢
      rw [hbegan _ hp] at hb
      exact hI.saved p b hmode hb
  · intro p hmode hf
    by_cases hp : .proc p = x
    · rw [hp, Function.update_self] at hmode
      exact absurd hmode hactive.2
    · rw [Function.update_of_ne hp] at hmode
      rw [hfresh] at hf
      rw [hbegan _ hp]
      exact hI.first p hmode hf
  · exact hrestored

omit [DecidableEq κ] in
/-- A section without a call of `push_off` or `pop_off`. -/
theorem Inv.quiet {c : Cpu ι} (hI : Inv w N) (hx : w.thread = x)
    (hH : HandOver (plain w'.toMachine (tokens (Function.update N x n))) (tokens (Function.update N x n)))
    (hlog : w'.log = w.log) (hexec : w'.exec = w.exec) (hfresh : w'.fresh = w.fresh)
    (hcpus : w'.cpus = Function.update w.cpus w.hart c) (hactive : n.Active) (hdepth : n.depth = (N x).depth)
    (hnoff : c.noff = w.cpu.noff) (hsie : 0 < n.depth → c.sie = false)
    (hintena : ∀ p b, x = .proc p → 0 < n.depth → foundBy x w.log = some b → c.intena = b) : Inv w' (Function.update N x n) := by
  have hx' : w.exec w.hart = x := hx
  have hcount : w.cpu.noff = n.depth := by
    rw [hdepth, ← hx']
    exact hI.noff w.hart
  apply hI.here hx hH hexec hfresh hcpus hactive (hnoff.trans hcount) hsie
  · intro h
    rw [hlog]
    by_cases hh : h = w.hart
    · rw [hh, if_pos rfl, hI.unmatched]
      exact hcount
    · rw [if_neg hh]
  · intro y
    rw [hlog]
    by_cases hy : y = x
    · rw [hy, if_pos rfl, hI.depth, hdepth]
    · rw [if_neg hy]
  · intro y _
    rw [hlog]
  · rw [hlog]
    exact hintena
  · rw [hlog]
    exact hI.restored

/-! ### Sections of a thread that is between two switches -/

omit [DecidableEq κ] in
theorem tokens_same (h : n.token = (N x).token) : tokens (Function.update N x n) = tokens N := by
  rw [tokens_update, h]
  exact Function.update_eq_self x (tokens N)

omit [DecidableEq κ] in
theorem Inv.count (hI : Inv w N) (hx : w.thread = x) : w.cpu.noff = (N x).depth := by
  rw [← hx]
  exact hI.noff w.hart

omit [DecidableEq ι] [DecidableEq κ] in
theorem proc_kept {c : Cpu ι} {cpus : H → Cpu ι} (hcpus : cpus = Function.update w.cpus w.hart c) (hproc : c.proc = w.cpu.proc) (h : H) :
    (cpus h).proc = (w.cpus h).proc := by
  rw [hcpus]
  by_cases hh : h = w.hart
  · rw [hh, Function.update_self]
    exact hproc
  · rw [Function.update_of_ne hh]

omit [DecidableEq κ] in
/-- A change of the counters is none for the hand-over. -/
theorem Inv.recount {c : Cpu ι} (hI : Inv w N) (h : n.token = (N x).token) {m : Machine H ι κ} (hexec : m.exec = w.exec)
    (hlocks : m.locks = w.locks) (hprocs : m.procs = w.procs) (hfresh : m.fresh = w.fresh)
    (hcpus : m.cpus = Function.update w.cpus w.hart c) (hproc : c.proc = w.cpu.proc) :
    HandOver (plain m (tokens (Function.update N x n))) (tokens (Function.update N x n)) := by
  rw [tokens_same h]
  exact handOver_plain hI.handOver hexec hlocks hprocs hfresh (proc_kept hcpus hproc)

omit [DecidableEq κ] in
theorem Inv.push (hI : Inv w N) (hx : w.thread = x) (hbusy : (N x).Busy x) (old : Bool) :
    Inv (w.pushOff old) (Function.update N x { N x with bare := (N x).bare + 1 }) := by
  have hcount := hI.count hx
  have hopen := hI.depth x
  have hH := hI.recount (m := (w.pushOff old).toMachine) (n := { N x with bare := (N x).bare + 1 }) (x := x) rfl rfl rfl rfl rfl rfl rfl
  have hdeeper : ({ N x with bare := (N x).bare + 1 } : Nest ι κ).depth = (N x).depth + 1 := rfl
  apply hI.here hx hH rfl rfl rfl hbusy.active
  · show w.cpu.noff + 1 = _
    rw [hcount, hdeeper]
  · exact fun _ => rfl
  · intro h
    show openOn h w.log + (if h = w.hart then 1 else 0) = _
    split
    next hh =>
      rw [hh, hI.unmatched, hdeeper]
      exact congrArg (· + 1) hcount
    next => rfl
  · intro y
    show openBy y w.log + (if y = w.thread then 1 else 0) = _
    rw [hx]
    split
    next hy => rw [hy, hopen, hdeeper]
    next => rfl
  · intro y hy
    show (if y = w.thread ∧ _ then _ else _) = _
    rw [hx, if_neg fun h => hy h.1]
  · intro p b hp _ hb
    have hb : (if x = w.thread ∧ openBy x w.log = 0 then some old else foundBy x w.log) = some b := hb
    show (if w.cpu.noff = 0 then old else w.cpu.intena) = b
    rw [hx, hopen] at hb
    rw [hcount]
    by_cases hzero : (N x).depth = 0
    · simpa [hzero] using hb
    · simp only [hzero, and_false, if_false] at hb ⊢
      have hexec : w.exec w.hart = .proc p := hx.trans hp
      rw [hp] at hb hbusy hzero
      exact hI.intena w.hart p b hexec hbusy.active (Nat.pos_of_ne_zero hzero) hb
  · exact hI.restored

omit [DecidableEq κ] in
theorem Inv.pop (hI : Inv w N) (hx : w.thread = x) (hbusy : (N x).Busy x) (hbare : 0 < (N x).bare) :
    Inv w.popOff (Function.update N x { N x with bare := (N x).bare - 1 }) := by
  have hcount := hI.count hx
  have hopen := hI.depth x
  have hH := hI.recount (m := w.popOff.toMachine) (n := { N x with bare := (N x).bare - 1 }) (x := x) rfl rfl rfl rfl rfl rfl rfl
  have hless : ({ N x with bare := (N x).bare - 1 } : Nest ι κ).depth = (N x).depth - 1 := by
    unfold Nest.depth
    simp only
    omega
  have hoff : w.cpu.sie = false := by
    apply hI.sie w.hart
    have hcount : (w.cpus w.hart).noff = (N x).depth := hcount
    rw [hcount]
    unfold Nest.depth
    omega
  -- what `intena` is where the thread is a process
  have hfound : ∀ p b, x = .proc p → foundBy x w.log = some b → w.cpu.intena = b := by
    intro p b hp hb
    have hexec : w.exec w.hart = .proc p := hx.trans hp
    rw [hp] at hb hbusy hbare
    refine hI.intena w.hart p b hexec hbusy.active ?_ hb
    unfold Nest.depth
    omega
  have hafter : w.toMachine.popOff.cpu.sie = if (N x).depth - 1 = 0 ∧ w.cpu.intena = true then true else false := by
    show (Function.update w.cpus w.hart _ w.hart).sie = _
    rw [Function.update_self]
    show (if w.cpu.noff - 1 = 0 ∧ w.cpu.intena = true then true else w.cpu.sie) = _
    rw [hcount, hoff]
  apply hI.here hx hH rfl rfl rfl hbusy.active
  · show w.cpu.noff - 1 = _
    rw [hcount, hless]
  · intro hpos
    show (if w.cpu.noff - 1 = 0 ∧ w.cpu.intena = true then true else w.cpu.sie) = false
    rw [hless] at hpos
    rw [hcount, hoff, if_neg fun h => Nat.ne_of_gt hpos h.1]
  · intro h
    show openOn h w.log - (if h = w.hart then 1 else 0) = _
    split
    next hh =>
      rw [hh, hI.unmatched, hless]
      exact congrArg (· - 1) hcount
    next => rfl
  · intro y
    show openBy y w.log - (if y = w.thread then 1 else 0) = _
    rw [hx]
    split
    next hy => rw [hy, hopen, hless]
    next => rfl
  · exact fun y _ => rfl
  · exact fun p b hp _ hb => hfound p b hp hb
  · refine ⟨fun p b hp hone hb => ?_, hI.restored⟩
    have hp : x = .proc p := hx.symm.trans hp
    have hone : openBy w.thread w.log = 1 := hone
    have hb : foundBy w.thread w.log = some b := hb
    rw [hx] at hone hb
    rw [hopen] at hone
    rw [hafter, hone, hfound p b hp hb]
    cases b <;> rfl

omit [DecidableEq κ] in
/-- A section that leaves the counters alone. -/
theorem Inv.still (hI : Inv w N) (hx : w.thread = x) (hbusy : (N x).Busy x)
    (hH : HandOver (plain w'.toMachine (tokens (Function.update N x n))) (tokens (Function.update N x n)))
    (hlog : w'.log = w.log) (hexec : w'.exec = w.exec) (hfresh : w'.fresh = w.fresh) (hcpus : w'.cpus = w.cpus)
    (hactive : n.Active) (hdepth : n.depth = (N x).depth) : Inv w' (Function.update N x n) := by
  have hself : w'.cpus = Function.update w.cpus w.hart w.cpu := hcpus.trans (Function.update_eq_self w.hart w.cpus).symm
  apply hI.quiet hx hH hlog hexec hfresh hself hactive hdepth rfl
  · intro hpos
    rw [hdepth, ← hI.count hx] at hpos
    exact hI.sie w.hart hpos
  · intro p b hp hpos hb
    have hexec : w.exec w.hart = .proc p := hx.trans hp
    rw [hdepth, hp] at hpos
    rw [hp] at hb hbusy
    exact hI.intena w.hart p b hexec hbusy.active hpos hb

omit [DecidableEq κ] in
/-- What a section of the hand-over does to the tokens. -/
theorem handOver_next {m m' : Machine H ι κ} {t : Harts.Token ι κ} (hH : HandOver m (Function.update (tokens N) x t)) (ht : n.token = t)
    (hexec : m'.exec = m.exec) (hlocks : m'.locks = m.locks) (hprocs : m'.procs = m.procs) (hfresh : m'.fresh = m.fresh)
    (hproc : ∀ h, (m'.cpus h).proc = (m.cpus h).proc) :
    HandOver (plain m' (tokens (Function.update N x n))) (tokens (Function.update N x n)) := by
  rw [tokens_update, ht]
  exact handOver_plain hH hexec hlocks hprocs hfresh hproc

omit [DecidableEq ι] [DecidableEq κ] in
theorem pushOff_proc (m : Machine H ι κ) (h : H) : (m.pushOff.cpus h).proc = (m.cpus h).proc := by
  refine m.setCpu_same _ (fun c => c.proc) ?_ h
  exact fun _ => rfl

omit [DecidableEq ι] [DecidableEq κ] in
theorem popOff_proc (m : Machine H ι κ) (h : H) : (m.popOff.cpus h).proc = (m.cpus h).proc := by
  refine m.setCpu_same _ (fun c => c.proc) ?_ h
  exact fun _ => rfl

/-- The lock is taken for which `push_off` has been called. -/
theorem Inv.take (hI : Inv w N) (hx : w.thread = x) (hbusy : (N x).Busy x) {l : Lock ι κ} (hfree : w.locks l = none)
    (hbare : 0 < (N x).bare) :
    Inv (w.on fun m => m.setLock l (some m.hart)) (Function.update N x { N x with held := l :: (N x).held, bare := (N x).bare - 1 }) := by
  have hH := hI.handOver.take hx hbusy hfree
  refine hI.still hx hbusy ?_ rfl rfl rfl rfl hbusy.active ?_
  · exact handOver_next hH rfl rfl rfl rfl rfl fun h => (pushOff_proc (plain w.toMachine (tokens N)) h).symm
  · simp only [Nest.depth, List.length_cons]
    omega

/-- A lock is let go of; its `push_off` is still to be undone. -/
theorem Inv.drop (hI : Inv w N) (hx : w.thread = x) (hbusy : (N x).Busy x) {l : Lock ι κ} (hl : l ∈ (N x).held)
    (hkeep : ∀ p d, x = .proc p → (N x).mode = .leaving d → l ≠ .proc p) :
    Inv (w.on fun m => m.setLock l none) (Function.update N x { N x with held := (N x).held.erase l, bare := (N x).bare + 1 }) := by
  have hstage : (N x).mode = .loop ∨ (N x).mode = .run ∨ ∃ p d, x = .proc p ∧ (N x).mode = .leaving d ∧ .proc p ∈ (N x).held.erase l := by
    rcases hbusy with h | h | ⟨p, d, hp, h, hmem⟩
    · exact .inl h
    · exact .inr (.inl h)
    · exact .inr (.inr ⟨p, d, hp, h, (List.mem_erase_of_ne (hkeep p d hp h).symm).mpr hmem⟩)
  have hH := hI.handOver.release hx hl hstage
  refine hI.still hx hbusy ?_ rfl rfl rfl rfl hbusy.active ?_
  · exact handOver_next hH rfl rfl rfl rfl rfl fun h => (popOff_proc ((plain w.toMachine (tokens N)).setLock l none) h).symm
  · have hpos := List.length_pos_of_mem hl
    simp only [Nest.depth, List.length_erase_of_mem hl]
    omega

omit [DecidableEq κ] in
/-- Interrupts are turned on or off by a thread that has nothing to undo. -/
theorem Inv.intr (hI : Inv w N) (hx : w.thread = x) (hbusy : (N x).Busy x) (hzero : (N x).depth = 0) (on : Bool) :
    Inv (w.on fun m => m.intr on) N := by
  have hH := hI.recount (m := w.toMachine.intr on) (n := N x) (x := x) rfl rfl rfl rfl rfl rfl rfl
  have hno : ¬ 0 < (N x).depth := Nat.not_lt.mpr (Nat.le_of_eq hzero)
  have hnext : Inv (w.on fun m => m.intr on) (Function.update N x (N x)) :=
    hI.quiet hx hH rfl rfl rfl rfl hbusy.active rfl rfl (fun hpos => absurd hpos hno) fun _ _ _ hpos => absurd hpos hno
  rwa [Function.update_eq_self] at hnext

/-! ### Sections on processes -/

omit [DecidableEq κ] in
/-- The thread changes a process whose lock it holds, and no context. -/
theorem Inv.changed {q : ι} {f : Harts.Proc ι κ → Harts.Proc ι κ} (hI : Inv w N) (hx : w.thread = x) (hbusy : (N x).Busy x)
    (hH : HandOver ((plain w.toMachine (tokens N)).setProc q f) (tokens N)) : Inv (w.on fun m => m.setProc q f) N := by
  have hnext : Inv (w.on fun m => m.setProc q f) (Function.update N x (N x)) := by
    refine hI.still hx hbusy ?_ rfl rfl rfl rfl hbusy.active rfl
    rw [Function.update_eq_self]
    exact handOver_plain hH rfl rfl rfl rfl fun _ => rfl
  rwa [Function.update_eq_self] at hnext

omit [DecidableEq κ] in
/-- A process that is unused, or a zombie, is not the one that does something about it. -/
theorem Inv.other {q : ι} (hI : Inv w N) (hmode : (N x).mode = .loop ∨ (N x).mode = .run) (hstate : (w.procs q).state ≠ .running) :
    x ≠ .proc q := by
  rintro rfl
  rcases hmode with hmode | hmode
  · cases hI.handOver.proc q with
    | run h => cases hmode.symm.trans h
    | leaving _ h => cases hmode.symm.trans h
    | down h => cases hmode.symm.trans h
    | gone h => cases hmode.symm.trans h
  · exact hstate (hI.handOver.run_state hmode).1

omit [DecidableEq κ] in
theorem Inv.wake (hI : Inv w N) (hx : w.thread = x) (hmode : (N x).mode = .loop ∨ (N x).mode = .run) {q : ι}
    (hq : .proc q ∈ (N x).held) : Inv (Care.wake.change q w) N := by
  apply hI.changed hx (hmode.imp_right .inl)
  refine hI.handOver.touch hx hmode hq ?_
  by_cases hs : (w.procs q).state = .sleeping
  · exact .inr ⟨hs, if_pos hs⟩
  · exact .inl (if_neg hs)

omit [DecidableEq κ] in
theorem Inv.reap (hI : Inv w N) (hx : w.thread = x) (hmode : (N x).mode = .loop ∨ (N x).mode = .run) {q : ι}
    (hq : .proc q ∈ (N x).held) : Inv (Care.reap.change q w) N := by
  apply hI.changed hx (hmode.imp_right .inl)
  by_cases hz : (w.procs q).state = .zombie
  · have hne : (w.procs q).state ≠ .running := by simp [hz]
    refine hI.handOver.setOther hx hmode hq (hI.other hmode hne) hne ?_ ?_
    · exact fun _ h => absurd hz h
    · exact fun _ => .inr (.inl (if_pos hz))
  · exact hI.handOver.touch hx hmode hq (.inl (if_neg hz))

omit [DecidableEq κ] in
/-- A slot that is unused has no process. -/
theorem Inv.unused (hI : Inv w N) {q : ι} (hstate : (w.procs q).state = .unused) :
    (N (.proc q)).mode = .gone ∧ (N (.proc q)).held = [.proc q] := by
  cases hI.handOver.proc q with
  | run _ _ _ state => cases state.symm.trans hstate
  | leaving _ _ _ _ _ _ used => exact absurd hstate used
  | down _ _ _ _ used => exact absurd hstate used
  | gone mode held => exact ⟨mode, held⟩

omit [DecidableEq κ] in
theorem Inv.spawn (hI : Inv w N) (hx : w.thread = x) (hmode : (N x).mode = .loop ∨ (N x).mode = .run) {q : ι}
    (hq : .proc q ∈ (N x).held) : Inv (Care.spawn.change q w) N := by
  by_cases hstate : (w.procs q).state = .unused
  · have hne : (w.procs q).state ≠ .running := by simp [hstate]
    have hother := hI.other hmode hne
    have hnever : ∀ h, w.exec h ≠ .proc q := hI.handOver.not_executed hx hq hother hne
    obtain ⟨hgone, hheld⟩ := hI.unused hstate
    have hone : (N (.proc q)).depth = 1 := by
      unfold Nest.depth
      rw [hheld, hI.bare _ hnever]
      rfl
    have hfresh : HandOver { plain w.toMachine (tokens N) with fresh := Function.update w.fresh q true } (tokens N) :=
      hI.handOver.setFresh hstate
    have hH := hfresh.setOther (f := fun x => { x with state := .runnable }) hx hmode hq hother hne (fun h => absurd hstate h)
      fun _ => .inl ⟨Function.update_self .., by simp⟩
    rw [Care.change, if_pos hstate]
    constructor
    · exact handOver_plain hH rfl rfl rfl rfl fun _ => rfl
    · exact hI.noff
    · exact hI.sie
    · exact hI.unmatched
    · intro y
      show (if y = .proc q then 1 else openBy y w.log) = _
      split
      next hy => rw [hy, hone]
      next => exact hI.depth y
    · exact hI.bare
    · intro h p b he hact hpos hb
      have hp : p ≠ q := by
        rintro rfl
        exact hact.2 hgone
      have hb : (if Thread.proc (H := H) p = .proc q then none else foundBy (.proc p) w.log) = some b := hb
      rw [if_neg fun h => hp (Thread.proc.inj h)] at hb
      exact hI.intena h p b he hact hpos hb
    · intro p b hdown hb
      have hp : p ≠ q := by
        rintro rfl
        cases hdown.symm.trans hgone
      have hb : (if Thread.proc (H := H) p = .proc q then none else foundBy (.proc p) w.log) = some b := hb
      rw [if_neg fun h => hp (Thread.proc.inj h)] at hb
      exact hI.saved p b hdown hb
    · intro p hp hf
      show (if Thread.proc p = .proc q then none else foundBy (.proc p) w.log) = none
      split
      next => rfl
      next hpq =>
        have hne : p ≠ q := fun h => hpq (congrArg Thread.proc h)
        have hf : Function.update w.fresh q true p = true := hf
        rw [Function.update_of_ne hne] at hf
        exact hI.first p hp hf
    · exact hI.restored
  · rw [Care.change, if_neg hstate]
    exact hI

omit [DecidableEq κ] in
theorem Inv.care (hI : Inv w N) (hx : w.thread = x) (hmode : (N x).mode = .loop ∨ (N x).mode = .run) {q : ι}
    (hq : .proc q ∈ (N x).held) (c : Care) : Inv (c.change q w) N := by
  cases c with
  | wake => exact hI.wake hx hmode hq
  | reap => exact hI.reap hx hmode hq
  | spawn => exact hI.spawn hx hmode hq

/-! ### Switching -/

omit [DecidableEq κ] in
/-- The running process has changed its state, and is about to leave its hart. -/
theorem Inv.pause {p : ι} {state : ProcState} (hI : Inv w N) (hx : w.thread = .proc p) (hmode : (N (.proc p)).mode = .run)
    (hp : .proc p ∈ (N (.proc p)).held) (hrunning : state ≠ .running) (hunused : state ≠ .unused) :
    Inv (w.on fun m => m.setProc p fun x => { x with state := state })
      (Function.update N (.proc p) { N (.proc p) with mode := .leaving (state = .zombie) }) := by
  have hH := hI.handOver.pause (t := ⟨.leaving (state = .zombie), (N (.proc p)).held, .none, []⟩)
    (f := fun x => { x with state := state }) hx hmode hp hrunning hunused (by simp) rfl rfl
  refine hI.still hx (.inr (.inl hmode)) ?_ rfl rfl rfl rfl ?_ rfl
  · exact handOver_next hH rfl rfl rfl rfl rfl fun _ => rfl
  · simp [Nest.Active]

omit [DecidableEq κ] in
/-- A section of a scheduler on its `c->proc`. -/
theorem Inv.setCurrent {h : H} (hI : Inv w N) (hx : w.thread = .sched h) {o : Option ι}
    (hH : HandOver (plain w'.toMachine (tokens (Function.update N (.sched h) n))) (tokens (Function.update N (.sched h) n)))
    (hlog : w'.log = w.log) (hexec : w'.exec = w.exec) (hfresh : w'.fresh = w.fresh)
    (hcpus : w'.cpus = Function.update w.cpus w.hart { w.cpu with proc := o }) (hactive : n.Active)
    (hdepth : n.depth = (N (.sched h)).depth) : Inv w' (Function.update N (.sched h) n) := by
  refine hI.quiet hx hH hlog hexec hfresh hcpus hactive hdepth rfl (fun hpos => ?_) fun p b hp => nomatch hp
  rw [hdepth, ← hI.count hx] at hpos
  exact hI.sie w.hart hpos

omit [DecidableEq κ] in
theorem Inv.choose {h : H} {q : ι} (hI : Inv w N) (hx : w.thread = .sched h) (hheld : (N (.sched h)).held = [.proc q])
    (hstate : (w.procs q).state = .runnable) :
    Inv (w.on fun m => (m.setProc q fun x => { x with state := .running }).setCpu fun c => { c with proc := some q })
      (Function.update N (.sched h) { N (.sched h) with mode := .chosen q }) := by
  have hH := hI.handOver.choose hx rfl hheld hstate
  refine hI.setCurrent hx ?_ rfl rfl rfl rfl (by simp [Nest.Active]) rfl
  refine handOver_next hH rfl rfl rfl rfl rfl fun h' => ?_
  show (Function.update w.cpus w.hart _ h').proc = (Function.update (plain w.toMachine (tokens N)).cpus w.hart _ h').proc
  by_cases hh : h' = w.hart
  · rw [hh, Function.update_self, Function.update_self]
  · rw [Function.update_of_ne hh, Function.update_of_ne hh]
    rfl

omit [DecidableEq κ] in
/-- The scheduler is back: its process has switched to it. -/
theorem Inv.back {h : H} {q : ι} (hI : Inv w N) (hx : w.thread = .sched h) (hmode : (N (.sched h)).mode = .away q) :
    Inv (w.on fun m => m.setCpu fun c => { c with proc := none }) (Function.update N (.sched h) { N (.sched h) with mode := .loop }) := by
  have hH := hI.handOver.back hx hmode
  refine hI.setCurrent hx ?_ rfl rfl rfl rfl (by simp [Nest.Active]) rfl
  refine handOver_next hH rfl rfl rfl rfl rfl fun h' => ?_
  show (Function.update w.cpus w.hart _ h').proc = (Function.update (plain w.toMachine (tokens N)).cpus w.hart _ h').proc
  by_cases hh : h' = w.hart
  · rw [hh, Function.update_self, Function.update_self]
  · rw [Function.update_of_ne hh, Function.update_of_ne hh]
    rfl

omit [DecidableEq κ] in
/-- The context of a process has been restored: `intena` is what `sched` has kept, or the process is new. -/
theorem Inv.arrive {p : ι} {c : Cpu ι} (hI : Inv w N) (hx : w.thread = .proc p) (s : Bool)
    (hmode : (N (.proc p)).mode = .down ∧ c.intena = (N (.proc p)).saved ∨ (N (.proc p)).mode = .gone ∧ w.fresh p = true)
    (hc : c.proc = w.cpu.proc ∧ c.noff = w.cpu.noff ∧ c.sie = w.cpu.sie) :
    Inv (w.on fun m => m.setCpu fun _ => c) (Function.update N (.proc p) { N (.proc p) with mode := .run, saved := s }) := by
  have hH := hI.handOver.arrive hx (hmode.imp And.left And.left) (fun c => c) fun _ => ⟨rfl, rfl, rfl⟩
  have hsame : ({ N (.proc p) with mode := .run, saved := s } : Nest ι κ).depth = (N (.proc p)).depth := rfl
  refine hI.quiet hx ?_ rfl rfl rfl rfl (by simp [Nest.Active]) hsame hc.2.1 (fun hpos => ?_) fun p' b hp _ hb => ?_
  · refine handOver_next hH rfl rfl rfl rfl rfl fun h => ?_
    have hplain := (plain w.toMachine (tokens N)).setCpu_same (fun c => c) (fun c => c.proc) (fun _ => rfl) h
    exact (proc_kept rfl hc.1 h).trans hplain.symm
  · rw [hsame, ← hI.count hx] at hpos
    rw [hc.2.2]
    exact hI.sie w.hart hpos
  · cases hp
    rcases hmode with ⟨hdown, hkept⟩ | ⟨hgone, hfresh⟩
    · rw [hkept]
      exact hI.saved p b hdown hb
    · cases hb.symm.trans (hI.first p hgone hfresh)

omit [DecidableEq κ] in
/-- The context of a new process begins. -/
theorem Inv.first_run {p : ι} {s' : Bool} {held : List (Lock ι κ)} {bare : Nat} (hI : Inv w N) (hx : w.thread = .proc p)
    (hN : N (.proc p) = ⟨.gone, held, bare, s'⟩) (hfresh : w.fresh p = true) (s : Bool) :
    Inv w (Function.update N (.proc p) ⟨.run, held, bare, s⟩) := by
  have harrive := hI.arrive (c := w.cpu) hx s (.inr ⟨by rw [hN], hfresh⟩) ⟨rfl, rfl, rfl⟩
  have hsame : (w.on fun m => m.setCpu fun _ => w.cpu) = w := by
    have hcpus : Function.update w.cpus w.hart w.cpu = w.cpus := Function.update_eq_self w.hart w.cpus
    show (⟨{ w.toMachine with cpus := Function.update w.cpus w.hart w.cpu }, w.log⟩ : Traced H ι κ) = w
    rw [hcpus]
  rw [hN, hsame] at harrive
  exact harrive

omit [DecidableEq κ] in
/-- A process that waits for a hart has the one call of `push_off` in force that the scheduler will hand it. -/
theorem Inv.waiting {q : ι} (hI : Inv w N) (hnever : ∀ h, w.exec h ≠ .proc q) :
    ¬ (N (.proc q)).Active ∧ (N (.proc q)).depth = 1 := by
  have hbare := hI.bare _ hnever
  unfold Nest.Active Nest.depth
  rw [hbare]
  cases hI.handOver.proc q with
  | run _ h exec => exact absurd exec (hnever h)
  | leaving _ _ h exec => exact absurd exec (hnever h)
  | down mode held => exact ⟨fun h => h.1 mode, congrArg List.length held⟩
  | gone mode held => exact ⟨fun h => h.2 mode, congrArg List.length held⟩

omit [DecidableEq κ] in
/-- The hart executes thread `y` instead, which takes over the counters. -/
theorem Inv.switch {y : Thread H ι} (hI : Inv w N) (hx : w.thread = x)
    (hH : HandOver (plain w'.toMachine (tokens (Function.update N x n))) (tokens (Function.update N x n)))
    (hlog : w'.log = w.log) (hcpus : w'.cpus = w.cpus) (hexec : w'.exec = Function.update w.exec w.hart y)
    (hdepth : n.depth = (N x).depth) (hbare : n.bare = 0) (hy : (N y).depth = (N x).depth) (hinactive : ∀ p, y = .proc p → ¬ (N y).Active)
    (hnot : ¬ n.Active ∨ ∃ h, x = .sched h)
    (hsaved : ∀ p b, x = .proc p → n.mode = .down → foundBy x w.log = some b → n.saved = b)
    (hfirst : ∀ p, (Function.update N x n (.proc p)).mode = .gone → w'.fresh p = true → foundBy (.proc p) w.log = none) :
    Inv w' (Function.update N x n) := by
  have hx : w.exec w.hart = x := hx
  have hsame : ∀ z, (Function.update N x n z).depth = (N z).depth := by
    intro z
    by_cases hz : z = x
    · rw [hz, Function.update_self, hdepth]
    · rw [Function.update_of_ne hz]
  constructor
  · exact hH
  · intro h
    rw [hsame, hcpus, hexec]
    by_cases hh : h = w.hart
    · rw [hh, Function.update_self, hy, ← hx]
      exact hI.noff w.hart
    · rw [Function.update_of_ne hh]
      exact hI.noff h
  · rw [hcpus]
    exact hI.sie
  · rw [hcpus, hlog]
    exact hI.unmatched
  · intro z
    rw [hlog, hsame]
    exact hI.depth z
  · intro z hz
    rw [hexec] at hz
    by_cases hzx : z = x
    · rw [hzx, Function.update_self]
      exact hbare
    · rw [Function.update_of_ne hzx]
      refine hI.bare z fun h he => ?_
      have hh : h ≠ w.hart := by
        rintro rfl
        exact hzx (he.symm.trans hx)
      exact hz h ((Function.update_of_ne hh ..).trans he)
  · intro h p b he hact hpos hb
    rw [hcpus]
    rw [hlog] at hb
    rw [hsame] at hpos
    have hpx : Thread.proc p ≠ x := by
      rintro rfl
      rw [Function.update_self] at hact
      rcases hnot with hnot | ⟨_, hs⟩
      · exact hnot hact
      · cases hs
    rw [Function.update_of_ne hpx] at hact
    rw [hexec] at he
    by_cases hh : h = w.hart
    · rw [hh, Function.update_self] at he
      rw [← he] at hact
      exact absurd hact (hinactive p he)
    · rw [Function.update_of_ne hh] at he
      exact hI.intena h p b he hact hpos hb
  · intro p b hdown hb
    rw [hlog] at hb
    by_cases hpx : Thread.proc p = x
    · rw [hpx, Function.update_self] at hdown ⊢
      rw [hpx] at hb
      exact hsaved p b hpx.symm hdown hb
    · rw [Function.update_of_ne hpx] at hdown ⊢
      exact hI.saved p b hdown hb
  · rw [hlog]
    exact hfirst
  · rw [hlog]
    exact hI.restored

omit [DecidableEq κ] in
/-- A scheduler switches to the process it has chosen. -/
theorem Inv.go {h : H} {q : ι} (hI : Inv w N) (hx : w.thread = .sched h) (hmode : (N (.sched h)).mode = .chosen q)
    (hbare : (N (.sched h)).bare = 0) :
    Inv (w.on fun m => m.setExec (.proc q)) (Function.update N (.sched h) { N (.sched h) with mode := .away q }) := by
  have hH := hI.handOver.go hx hmode
  obtain ⟨hheld, honly⟩ : (N (.sched h)).held = [.proc q] ∧ ∀ h', w.exec h' ≠ .proc q := by
    cases hI.handOver.sched h with
    | loop mode => cases hmode.symm.trans mode
    | away _ mode => cases hmode.symm.trans mode
    | chosen p mode _ held _ _ only =>
      cases hmode.symm.trans mode
      exact ⟨held, only⟩
  obtain ⟨hinactive, hone⟩ := hI.waiting honly
  refine hI.switch hx ?_ rfl rfl rfl rfl hbare ?_ ?_ (.inr ⟨h, rfl⟩) (fun p b hp => nomatch hp) ?_
  · exact handOver_next hH rfl rfl rfl rfl rfl fun _ => rfl
  · rw [hone, Nest.depth, hheld, hbare]
    rfl
  · exact fun _ _ => hinactive
  · intro p hgone hfresh
    rw [Function.update_of_ne Thread.proc_ne] at hgone
    exact hI.first p hgone hfresh

omit [DecidableEq κ] in
/-- A process switches to the scheduler of its hart; `sched` keeps `intena`. -/
theorem Inv.leave {p : ι} {d : Bool} (hI : Inv w N) (hx : w.thread = .proc p) (hmode : (N (.proc p)).mode = .leaving d)
    (hheld : (N (.proc p)).held = [.proc p]) (hbare : (N (.proc p)).bare = 0) :
    Inv (w.on fun m => m.toSched p) (Function.update N (.proc p)
      { N (.proc p) with mode := if d = true then .gone else .down, saved := w.cpu.intena }) := by
  have hexec : w.exec w.hart = .proc p := hx
  have hH := hI.handOver.leave hx hmode hheld
  have hone : (N (.proc p)).depth = 1 := by
    rw [Nest.depth, hheld, hbare]
    rfl
  -- the scheduler waits with one lock
  have hsched : (N (.sched w.hart)).depth = 1 := by
    have hnever : ∀ h, w.exec h ≠ .sched w.hart := by
      intro h he
      have hh : w.hart = h := hI.handOver.exec_sched he
      rw [← hh, hexec] at he
      cases he
    rw [Nest.depth, hI.bare _ hnever]
    cases hI.handOver.sched w.hart with
    | loop _ exec => cases exec.symm.trans hexec
    | chosen _ _ exec => cases exec.symm.trans hexec
    | away q _ held => exact congrArg List.length held
  refine hI.switch (y := .sched w.hart) hx ?_ rfl rfl rfl rfl hbare (hsched.trans hone.symm) (fun _ h => nomatch h) (.inl ?_) ?_ ?_
  · exact handOver_next hH rfl rfl rfl rfl rfl fun _ => rfl
  · cases d <;> simp [Nest.Active]
  · rintro r b ⟨⟩ - hb
    exact hI.intena w.hart p b hexec (by simp [Nest.Active, hmode]) (by omega) hb
  · intro r hgone hf
    have hf : Function.update w.fresh p false r = true := hf
    by_cases hr : r = p
    · rw [hr, Function.update_self] at hf
      cases hf
    · rw [Function.update_of_ne hr] at hf
      rw [Function.update_of_ne fun h => hr (Thread.proc.inj h)] at hgone
      exact hI.first r hgone hf

end Farron.Intr
