import Farron.Proc.Code

/-! How harts, locks and processes hand over.

Each thread has a token: where it stands in the hand-over, and the locks that it holds, or
for a thread that is not executing the lock that it will hold when it does. A process
acquires its lock and switches to the scheduler, which releases it; and the other way
round. `HandOver` says that the locks are those of the executing threads, and what each
stage means for the process table. Each section is shown to keep it. -/
namespace Farron.Harts
open Resumption

/-- Where a thread stands. A scheduler is in its loop, has chosen a process, or is away: it has
switched to a process. A process runs, is leaving its hart, where it may be `dead`, is down with
its context saved, or is gone: it has exited, or was never born. -/
inductive Mode (ι : Type)
  | loop
  | chosen (p : ι)
  | away (p : ι)
  | run
  | leaving (dead : Bool)
  | down
  | gone

/-- How far the slot of a new process is: found, with a context, with a parent. -/
inductive Stage
  | found
  | made
  | linked

/-- What a process is doing for its family: it scans its children in `wait`, has picked the
parent to wake in `exit` and gives its children away, or fills a new slot in `fork`. -/
inductive Task (ι : Type)
  | none
  | waiting (scanned : List ι) (child : Option ι)
  | exiting (parent : ι) (orphaned : List ι) (child : Option ι)
  | forking (q : ι) (stage : Stage)

/-- `reaped` are the process's successful waits, newest first. -/
structure Token (ι κ : Type) where
  mode : Mode ι
  held : List (Lock ι κ)
  task : Task ι
  reaped : List (Int × Int)

variable {H ι κ : Type}

/-- What the stage of the scheduler of hart `h` means. -/
inductive SchedOk (m : Machine H ι κ) (h : H) (t : Token ι κ) : Prop
  | loop (mode : t.mode = .loop) (exec : m.exec h = .sched h) (cpu : (m.cpus h).proc = none)
  | chosen (p : ι) (mode : t.mode = .chosen p) (exec : m.exec h = .sched h) (held : t.held = [.proc p])
      (cpu : (m.cpus h).proc = some p) (state : (m.procs p).state = .running) (only : ∀ h', m.exec h' ≠ .proc p)
  | away (p : ι) (mode : t.mode = .away p) (held : t.held = [.proc p]) (cpu : (m.cpus h).proc = some p)
      (back : m.exec h = .proc p ∨ m.exec h = .sched h ∧ (m.procs p).state ≠ .running)

/-- What the stage of process `p` means. -/
inductive ProcOk (m : Machine H ι κ) (p : ι) (t : Token ι κ) : Prop
  | run (mode : t.mode = .run) (h : H) (exec : m.exec h = .proc p) (state : (m.procs p).state = .running)
  | leaving (dead : Bool) (mode : t.mode = .leaving dead) (h : H) (exec : m.exec h = .proc p) (held : .proc p ∈ t.held)
      (state : (m.procs p).state ≠ .running) (used : (m.procs p).state ≠ .unused)
      (last : (m.procs p).state = .zombie ↔ dead = true)
  | down (mode : t.mode = .down) (held : t.held = [.proc p]) (state : ∀ h, m.exec h = .proc p → (m.procs p).state = .running)
      (saved : m.fresh p = false) (used : (m.procs p).state ≠ .unused) (alive : (m.procs p).state ≠ .zombie)
  | gone (mode : t.mode = .gone) (held : t.held = [.proc p]) (state : ∀ h, m.exec h = .proc p → (m.procs p).state = .running)
      (stage : m.fresh p = true ∧ (m.procs p).state ≠ .zombie ∨ (m.procs p).state = .unused ∨ (m.procs p).state = .zombie)

theorem SchedOk.congr {m : Machine H ι κ} {h : H} {t t' : Token ι κ} (hok : SchedOk m h t) (hmode : t'.mode = t.mode)
    (hheld : t'.held = t.held) : SchedOk m h t' := by
  cases hok with
  | loop mode exec cpu => exact .loop (hmode.trans mode) exec cpu
  | chosen p mode exec held cpu state only => exact .chosen p (hmode.trans mode) exec (hheld.trans held) cpu state only
  | away p mode held cpu back => exact .away p (hmode.trans mode) (hheld.trans held) cpu back

theorem ProcOk.congr {m : Machine H ι κ} {p : ι} {t t' : Token ι κ} (hok : ProcOk m p t) (hmode : t'.mode = t.mode)
    (hheld : t'.held = t.held) : ProcOk m p t' := by
  cases hok with
  | run mode h exec state => exact .run (hmode.trans mode) h exec state
  | leaving dead mode h exec held state used last =>
    refine .leaving dead (hmode.trans mode) h exec ?_ state used last
    rw [hheld]
    exact held
  | down mode held state saved used alive => exact .down (hmode.trans mode) (hheld.trans held) state saved used alive
  | gone mode held state stage => exact .gone (hmode.trans mode) (hheld.trans held) state stage

/-- The clause of a scheduler reads who is executed and the states of processes. -/
theorem SchedOk.of_eq {m m' : Machine H ι κ} {h : H} {t : Token ι κ} (hok : SchedOk m h t) (hexec : m'.exec = m.exec)
    (hcpu : (m'.cpus h).proc = (m.cpus h).proc)
    (hstate : ∀ p, t.held = [.proc p] → m.exec h = .sched h → (m'.procs p).state = (m.procs p).state) : SchedOk m' h t := by
  cases hok with
  | loop mode exec cpu => exact .loop mode (hexec ▸ exec) (hcpu.trans cpu)
  | chosen p mode exec held cpu state only =>
    exact .chosen p mode (hexec ▸ exec) held (hcpu.trans cpu) ((hstate p held exec).trans state) (hexec ▸ only)
  | away p mode held cpu back =>
    refine .away p mode held (hcpu.trans cpu) ?_
    rw [hexec]
    obtain he | ⟨he, hst⟩ := back
    · exact .inl he
    · rw [hstate p held he]
      exact .inr ⟨he, hst⟩

/-- The clause of a process reads its state, who executes it and its context. -/
theorem ProcOk.of_eq {m m' : Machine H ι κ} {p : ι} {t : Token ι κ} (hok : ProcOk m p t) (hexec : m'.exec = m.exec)
    (hstate : (m'.procs p).state = (m.procs p).state) (hfresh : m'.fresh p = m.fresh p) : ProcOk m' p t := by
  cases hok with
  | run mode h exec state => exact .run mode h (hexec ▸ exec) (hstate ▸ state)
  | leaving dead mode h exec held state used last =>
    exact .leaving dead mode h (hexec ▸ exec) held (hstate ▸ state) (hstate ▸ used) (hstate ▸ last)
  | down mode held state saved used alive =>
    exact .down mode held (fun h he => hstate.trans (state h (hexec ▸ he))) (hfresh.trans saved) (hstate ▸ used) (hstate ▸ alive)
  | gone mode held state stage =>
    refine .gone mode held (fun h he => hstate.trans (state h (hexec ▸ he))) ?_
    rw [hfresh, hstate]
    exact stage

/-- The token of a process that no hart executes carries the process's own lock. -/
theorem ProcOk.held_waiting {m : Machine H ι κ} {p : ι} {t : Token ι κ} (hok : ProcOk m p t) (hidle : ∀ h, m.exec h ≠ .proc p) :
    t.held = [.proc p] := by
  cases hok with
  | run _ h exec => exact absurd exec (hidle h)
  | leaving _ _ h exec => exact absurd exec (hidle h)
  | down _ held => exact held
  | gone _ held => exact held

structure HandOver (m : Machine H ι κ) (T : Thread H ι → Token ι κ) : Prop where
  exec : ∀ h, m.exec h = .sched h ∨ ∃ p, m.exec h = .proc p ∧ (T (.sched h)).mode = .away p
  alone : ∀ h h', m.exec h = m.exec h' → h = h'
  locks : ∀ l h, m.locks l = some h ↔ l ∈ (T (m.exec h)).held
  nodup : ∀ h, (T (m.exec h)).held.Nodup
  noff : ∀ h, (m.cpus h).noff = (T (m.exec h)).held.length
  sie : ∀ h, 0 < (m.cpus h).noff → (m.cpus h).sie = false
  sched : ∀ h, SchedOk m h (T (.sched h))
  proc : ∀ p, ProcOk m p (T (.proc p))

theorem Thread.sched_ne {h : H} {p : ι} : (Thread.sched h : Thread H ι) ≠ .proc p := fun he => nomatch he

theorem Thread.proc_ne {h : H} {p : ι} : (Thread.proc p : Thread H ι) ≠ .sched h := fun he => nomatch he

/-- What a change of the running hart's `struct cpu` leaves alone stays at every hart. -/
theorem Machine.setCpu_same [DecidableEq H] (m : Machine H ι κ) (f : Cpu ι → Cpu ι) {α : Type} (g : Cpu ι → α)
    (hg : ∀ c, g (f c) = g c) (h : H) : g ((m.setCpu f).cpus h) = g (m.cpus h) := by
  by_cases hh : h = m.hart
  · subst hh
    show g (Function.update m.cpus m.hart _ m.hart) = _
    rw [Function.update_self]
    exact hg _
  · show g (Function.update m.cpus m.hart _ h) = _
    rw [Function.update_of_ne hh]

namespace HandOver
variable {m : Machine H ι κ} {T : Thread H ι → Token ι κ}

/-- A hart executes its own scheduler only. -/
theorem exec_sched (hI : HandOver m T) {h h' : H} (h₁ : m.exec h = .sched h') : h' = h := by
  obtain he | ⟨p, he, _⟩ := hI.exec h
  · rw [h₁] at he
    cases he
    rfl
  · rw [h₁] at he
    cases he

/-- A lock has one holder. -/
theorem one_holder (hI : HandOver m T) {l : Lock ι κ} {h g : H} (h₁ : l ∈ (T (m.exec h)).held)
    (h₂ : l ∈ (T (m.exec g)).held) : h = g :=
  Option.some.inj (((hI.locks l h).mpr h₁).symm.trans ((hI.locks l g).mpr h₂))

/-- A process that a hart executes is the hart's current process. -/
theorem cpu_proc (hI : HandOver m T) {h : H} {p : ι} (he : m.exec h = .proc p) : (m.cpus h).proc = some p := by
  obtain hs | ⟨q, hq, hmode⟩ := hI.exec h
  · rw [hs] at he
    cases he
  · rw [he] at hq
    cases hq
    cases hI.sched h with
    | loop mode => rw [hmode] at mode; cases mode
    | chosen q mode => rw [hmode] at mode; cases mode
    | away q mode held cpu back =>
      rw [hmode] at mode
      cases mode
      exact cpu

/-- The invariant reads only the modes and locks of the tokens. -/
theorem congr (hI : HandOver m T) {T' : Thread H ι → Token ι κ}
    (hT : ∀ x, (T' x).mode = (T x).mode ∧ (T' x).held = (T x).held) : HandOver m T' := by
  refine ⟨fun h => ?_, hI.alone, fun l h => ?_, fun h => ?_, fun h => ?_, hI.sie,
    fun h => (hI.sched h).congr (hT _).1 (hT _).2, fun p => (hI.proc p).congr (hT _).1 (hT _).2⟩
  · rw [(hT _).1]
    exact hI.exec h
  · rw [(hT _).2]
    exact hI.locks l h
  · rw [(hT _).2]
    exact hI.nodup h
  · rw [(hT _).2]
    exact hI.noff h

/-- The history and the pids are not read. -/
theorem frame (hI : HandOver m T) {m' : Machine H ι κ} (hexec : m'.exec = m.exec) (hlocks : m'.locks = m.locks)
    (hcpus : m'.cpus = m.cpus) (hprocs : m'.procs = m.procs) (hfresh : m'.fresh = m.fresh) : HandOver m' T := by
  refine ⟨?_, ?_, ?_, ?_, ?_, ?_, fun h => (hI.sched h).of_eq hexec (by rw [hcpus]) fun p _ _ => by rw [hprocs],
    fun p => (hI.proc p).of_eq hexec (by rw [hprocs]) (by rw [hfresh])⟩
  · rw [hexec]
    exact hI.exec
  · rw [hexec]
    exact hI.alone
  · rw [hexec, hlocks]
    exact hI.locks
  · rw [hexec]
    exact hI.nodup
  · rw [hexec, hcpus]
    exact hI.noff
  · rw [hcpus]
    exact hI.sie

/-- A thread takes up another task. -/
theorem retask [DecidableEq H] [DecidableEq ι] {x : Thread H ι} {t t' : Token ι κ} (hI : HandOver m (Function.update T x t))
    (hmode : t'.mode = t.mode) (hheld : t'.held = t.held) : HandOver m (Function.update T x t') := by
  apply hI.congr
  intro y
  by_cases hy : y = x
  · subst hy
    rw [Function.update_self, Function.update_self]
    exact ⟨hmode, hheld⟩
  · rw [Function.update_of_ne hy, Function.update_of_ne hy]
    exact ⟨rfl, rfl⟩

/-! ### What a thread that is executing knows -/

section Here
variable {x : Thread H ι}

/-- A scheduler that executes is the one of the hart. -/
theorem sched_here (hI : HandOver m T) {h : H} (hx : m.exec m.hart = .sched h) : h = m.hart := hI.exec_sched hx

/-- A process that has been switched to is RUNNING. -/
theorem arrived (hI : HandOver m T) {p : ι} (hx : m.exec m.hart = .proc p)
    (hmode : (T (.proc p)).mode = .down ∨ (T (.proc p)).mode = .gone) :
    (T (.proc p)).held = [.proc p] ∧ (m.procs p).state = .running := by
  cases hI.proc p with
  | run mode => rw [mode] at hmode; simp at hmode
  | leaving dead mode => rw [mode] at hmode; simp at hmode
  | down mode held state => exact ⟨held, state _ hx⟩
  | gone mode held state => exact ⟨held, state _ hx⟩

/-- Whoever holds the lock of another process whose state is not RUNNING knows that no hart
executes it. -/
theorem not_executed (hI : HandOver m T) (hx : m.exec m.hart = x) {q : ι} (hq : .proc q ∈ (T x).held) (hne : x ≠ .proc q)
    (hstate : (m.procs q).state ≠ .running) (h : H) : m.exec h ≠ .proc q := by
  intro he
  cases hI.proc q with
  | run mode _ _ state => exact hstate state
  | down mode held state => exact hstate (state h he)
  | gone mode held state => exact hstate (state h he)
  | leaving dead mode _ _ held =>
    have h1 : .proc q ∈ (T (m.exec h)).held := by
      rw [he]
      exact held
    have h2 : .proc q ∈ (T (m.exec m.hart)).held := by
      rw [hx]
      exact hq
    have := hI.one_holder h1 h2
    rw [this, hx] at he
    exact hne he

end Here
/-! ### Sections that only take and release locks -/

section Sections
variable [DecidableEq H] [DecidableEq ι] [DecidableEq κ] {x : Thread H ι} {t : Token ι κ}

omit [DecidableEq κ] in
theorem tok_here (hx : m.exec m.hart = x) : Function.update T x t (m.exec m.hart) = t := by
  rw [hx, Function.update_self]

omit [DecidableEq κ] in
theorem tok_there (hI : HandOver m T) (hx : m.exec m.hart = x) {h : H} (hne : h ≠ m.hart) :
    Function.update T x t (m.exec h) = T (m.exec h) := by
  apply Function.update_of_ne
  intro he
  apply hne
  apply hI.alone
  rw [he, hx]

omit [DecidableEq κ] in
theorem exec_kept (hI : HandOver m T) (hx : m.exec m.hart = x) (t : Token ι κ) (h : H) :
    m.exec h = .sched h ∨ ∃ p, m.exec h = .proc p ∧ (Function.update T x t (.sched h)).mode = .away p := by
  obtain he | ⟨p, he, hmode⟩ := hI.exec h
  · exact .inl he
  · refine .inr ⟨p, he, ?_⟩
    have hne : Thread.sched h ≠ x := by
      intro hxe
      rw [← hxe] at hx
      have := hI.sched_here hx
      subst this
      rw [he] at hx
      cases hx
    rw [Function.update_of_ne hne]
    exact hmode

omit [DecidableEq κ] in
/-- The thread that executes takes or releases locks: the process table and who executes what
stay. -/
theorem quiet (hI : HandOver m T) (hx : m.exec m.hart = x) {m' : Machine H ι κ} {c : Cpu ι} (hexec : m'.exec = m.exec)
    (hprocs : m'.procs = m.procs) (hfresh : m'.fresh = m.fresh) (hcpus : m'.cpus = Function.update m.cpus m.hart c)
    (hproc : c.proc = m.cpu.proc) (hmode : t.mode = (T x).mode)
    (hstage : (T x).mode = .loop ∨ (T x).mode = .run ∨ ∃ p d, x = .proc p ∧ (T x).mode = .leaving d ∧ .proc p ∈ t.held)
    (hlocks : ∀ l h, m'.locks l = some h ↔ if h = m.hart then l ∈ t.held else m.locks l = some h)
    (hnodup : t.held.Nodup) (hnoff : c.noff = t.held.length) (hsie : 0 < t.held.length → c.sie = false) :
    HandOver m' (Function.update T x t) := by
  have hhere : m'.cpus m.hart = c := by
    rw [hcpus, Function.update_self]
  have hthere : ∀ h, h ≠ m.hart → m'.cpus h = m.cpus h := by
    intro h hh
    rw [hcpus, Function.update_of_ne hh]
  have hcpu : ∀ h, (m'.cpus h).proc = (m.cpus h).proc := by
    intro h
    by_cases hh : h = m.hart
    · subst hh
      rw [hhere, hproc]
      rfl
    · rw [hthere h hh]
  refine ⟨?_, ?_, fun l h => ?_, fun h => ?_, fun h => ?_, fun h hpos => ?_, fun h => ?_, fun p => ?_⟩
  · rw [hexec]
    exact hI.exec_kept hx t
  · rw [hexec]
    exact hI.alone
  · rw [hlocks, hexec]
    by_cases hh : h = m.hart
    · subst hh
      rw [if_pos rfl, tok_here hx]
    · rw [if_neg hh, hI.tok_there hx hh]
      exact hI.locks l h
  · rw [hexec]
    by_cases hh : h = m.hart
    · subst hh
      rw [tok_here hx]
      exact hnodup
    · rw [hI.tok_there hx hh]
      exact hI.nodup h
  · rw [hexec]
    by_cases hh : h = m.hart
    · subst hh
      rw [tok_here hx, hhere]
      exact hnoff
    · rw [hI.tok_there hx hh, hthere h hh]
      exact hI.noff h
  · by_cases hh : h = m.hart
    · subst hh
      rw [hhere, hnoff] at hpos
      rw [hhere]
      exact hsie hpos
    · rw [hthere h hh] at hpos ⊢
      exact hI.sie h hpos
  · have hold : SchedOk m' h (T (.sched h)) := (hI.sched h).of_eq hexec (hcpu h) fun p _ _ => by rw [hprocs]
    by_cases hxh : Thread.sched h = x
    · subst hxh
      rw [Function.update_self]
      cases hold with
      | loop mode exec cpu => exact .loop (hmode.trans mode) exec cpu
      | chosen p mode => rw [mode] at hstage; simp at hstage
      | away p mode => rw [mode] at hstage; simp at hstage
    · rw [Function.update_of_ne hxh]
      exact hold
  · have hold : ProcOk m' p (T (.proc p)) := (hI.proc p).of_eq hexec (by rw [hprocs]) (by rw [hfresh])
    by_cases hxp : Thread.proc p = x
    · subst hxp
      rw [Function.update_self]
      cases hold with
      | run mode h exec state => exact .run (hmode.trans mode) h exec state
      | leaving dead mode h exec held state used last =>
        obtain hl | hr | ⟨q, d, hq, _, hmem⟩ := hstage
        · rw [hl] at mode
          cases mode
        · rw [hr] at mode
          cases mode
        · cases hq
          exact .leaving dead (hmode.trans mode) h exec hmem state used last
      | down mode => rw [mode] at hstage; simp at hstage
      | gone mode => rw [mode] at hstage; simp at hstage
    · rw [Function.update_of_ne hxp]
      exact hold

/-- A lock that is free is taken. -/
theorem take (hI : HandOver m T) (hx : m.exec m.hart = x)
    (hstage : (T x).mode = .loop ∨ (T x).mode = .run ∨ ∃ p d, x = .proc p ∧ (T x).mode = .leaving d ∧ .proc p ∈ (T x).held)
    {l : Lock ι κ} (hfree : m.locks l = none) :
    HandOver (m.pushOff.setLock l (some m.hart)) (Function.update T x { T x with held := l :: (T x).held }) := by
  have hnot : l ∉ (T x).held := by
    intro hl
    rw [← hx, ← hI.locks, hfree] at hl
    cases hl
  have hlocks := hI.locks
  have hnoff := hI.noff m.hart
  rw [hx] at hnoff
  refine hI.quiet hx rfl rfl rfl rfl rfl rfl ?_ (fun l' h => ?_) ?_ ?_ fun _ => rfl
  · rcases hstage with h | h | ⟨p, d, hp, h, hmem⟩
    · exact .inl h
    · exact .inr (.inl h)
    · exact .inr (.inr ⟨p, d, hp, h, List.mem_cons_of_mem _ hmem⟩)
  · show Function.update m.locks l (some m.hart) l' = some h ↔ _
    by_cases hl : l' = l
    · subst hl
      rw [Function.update_self]
      by_cases hh : h = m.hart
      · subst hh
        rw [if_pos rfl]
        exact ⟨fun _ => List.mem_cons_self, fun _ => rfl⟩
      · rw [if_neg hh, hfree]
        exact ⟨fun he => absurd (Option.some.inj he).symm hh, fun he => nomatch he⟩
    · rw [Function.update_of_ne hl]
      by_cases hh : h = m.hart
      · subst hh
        rw [if_pos rfl, hlocks, hx, List.mem_cons]
        exact ⟨.inr, fun h => h.resolve_left hl⟩
      · rw [if_neg hh]
  · have := hI.nodup m.hart
    rw [hx] at this
    exact List.nodup_cons.mpr ⟨hnot, this⟩
  · rw [List.length_cons, ← hnoff]
    rfl

theorem acquire (hI : HandOver m T) (hx : m.exec m.hart = x) (hstage : (T x).mode = .loop ∨ (T x).mode = .run)
    {l : Lock ι κ} (hfree : m.locks l = none) :
    HandOver (m.pushOff.setLock l (some m.hart)) (Function.update T x { T x with held := l :: (T x).held }) :=
  hI.take hx (hstage.imp_right .inl) hfree

theorem release (hI : HandOver m T) (hx : m.exec m.hart = x) {l : Lock ι κ} (hl : l ∈ (T x).held)
    (hstage : (T x).mode = .loop ∨ (T x).mode = .run ∨
      ∃ p d, x = .proc p ∧ (T x).mode = .leaving d ∧ .proc p ∈ (T x).held.erase l) :
    HandOver (m.setLock l none).popOff (Function.update T x { T x with held := (T x).held.erase l }) := by
  have hnodup := hI.nodup m.hart
  have hnoff := hI.noff m.hart
  have hsie := hI.sie m.hart
  rw [hx] at hnoff hnodup
  have hlen : (T x).held.length = ((T x).held.erase l).length + 1 := by
    rw [List.length_erase_of_mem hl]
    have := List.length_pos_of_mem hl
    omega
  refine hI.quiet hx rfl rfl rfl rfl rfl rfl hstage (fun l' h => ?_) (hnodup.erase l) ?_ fun hpos => ?_
  · show Function.update m.locks l none l' = some h ↔ _
    by_cases hl' : l' = l
    · subst hl'
      rw [Function.update_self]
      by_cases hh : h = m.hart
      · rw [if_pos hh]
        exact ⟨fun h => (nomatch h), fun h => absurd h hnodup.not_mem_erase⟩
      · rw [if_neg hh]
        refine ⟨fun h => (nomatch h), fun he => ?_⟩
        have hhere : m.locks l' = some m.hart := by
          rw [hI.locks, hx]
          exact hl
        rw [hhere] at he
        exact absurd (Option.some.inj he).symm hh
    · rw [Function.update_of_ne hl']
      by_cases hh : h = m.hart
      · subst hh
        rw [if_pos rfl, hI.locks, hx]
        exact (List.mem_erase_of_ne hl').symm
      · rw [if_neg hh]
  · show (m.cpus m.hart).noff - 1 = _
    rw [hnoff, hlen]
    rfl
  · have hpos : 0 < ((T x).held.erase l).length := hpos
    have hn : ¬ ((m.cpus m.hart).noff - 1 = 0 ∧ (m.cpus m.hart).intena = true) := by
      intro h
      rw [hnoff] at h
      omega
    show (if (m.cpus m.hart).noff - 1 = 0 ∧ (m.cpus m.hart).intena = true then true else (m.cpus m.hart).sie) = false
    rw [if_neg hn]
    apply hsie
    omega

omit [DecidableEq κ] in
/-- Interrupts are turned on or off by a thread that holds no lock. -/
theorem intr (hI : HandOver m T) (hx : m.exec m.hart = x) (hheld : (T x).held = [])
    (hstage : (T x).mode = .loop ∨ (T x).mode = .run) (on : Bool) : HandOver (m.intr on) T := by
  have hnoff := hI.noff m.hart
  rw [hx] at hnoff
  have hself : Function.update T x (T x) = T := Function.update_eq_self x T
  rw [← hself]
  refine hI.quiet hx rfl rfl rfl rfl rfl rfl ?_ (fun l h => ?_) ?_ hnoff fun hpos => ?_
  · obtain h | h := hstage
    · exact .inl h
    · exact .inr (.inl h)
  · show m.locks l = some h ↔ _
    by_cases hh : h = m.hart
    · subst hh
      rw [if_pos rfl, hI.locks, hx]
    · rw [if_neg hh]
  · rw [hheld]
    exact List.nodup_nil
  · rw [hheld] at hpos
    exact absurd hpos (Nat.lt_irrefl 0)

/-! ### Sections on the process table -/

omit [DecidableEq H] [DecidableEq ι] [DecidableEq κ] in
/-- The lock of a process that a scheduler holds is not held by another thread. -/
theorem sched_holds (hI : HandOver m T) (hx : m.exec m.hart = x) {q : ι} (hq : .proc q ∈ (T x).held) {h : H}
    (he : m.exec h = .sched h) (hheld : .proc q ∈ (T (.sched h)).held) : x = .sched h := by
  have h1 : .proc q ∈ (T (m.exec h)).held := by
    rw [he]
    exact hheld
  have h2 : .proc q ∈ (T (m.exec m.hart)).held := by
    rw [hx]
    exact hq
  have := hI.one_holder h1 h2
  rw [this, hx] at he
  rw [this]
  exact he

omit [DecidableEq κ] in
/-- A section on a process whose lock is held. -/
theorem setProc (hI : HandOver m T) (hx : m.exec m.hart = x)
    (hstage : (T x).mode = .loop ∨ (T x).mode = .run) {q : ι} (hq : .proc q ∈ (T x).held)
    {f : Proc ι κ → Proc ι κ} (hheld : t.held = (T x).held) (hmode : x ≠ .proc q → t.mode = (T x).mode)
    (hok : ProcOk (m.setProc q f) q (Function.update T x t (.proc q))) :
    HandOver (m.setProc q f) (Function.update T x t) := by
  have hsame : ∀ y, (Function.update T x t y).held = (T y).held := by
    intro y
    by_cases hy : y = x
    · subst hy
      rw [Function.update_self, hheld]
    · rw [Function.update_of_ne hy]
  have hprocs : ∀ p, p ≠ q → (m.setProc q f).procs p = m.procs p := fun p hp => Function.update_of_ne hp _ _
  refine ⟨hI.exec_kept hx t, hI.alone, fun l h => ?_, fun h => ?_, fun h => ?_, hI.sie, fun h => ?_, fun p => ?_⟩
  · rw [hsame]
    exact hI.locks l h
  · rw [hsame]
    exact hI.nodup h
  · rw [hsame]
    exact hI.noff h
  · by_cases hxh : Thread.sched h = x
    · subst hxh
      rw [Function.update_self]
      cases hI.sched h with
      | loop mode exec cpu => exact .loop ((hmode fun h => nomatch h).trans mode) exec cpu
      | chosen p mode => rw [mode] at hstage; simp at hstage
      | away p mode => rw [mode] at hstage; simp at hstage
    · rw [Function.update_of_ne hxh]
      refine (hI.sched h).of_eq rfl rfl fun p hp he => ?_
      have hpq : p ≠ q := by
        intro hpq
        subst hpq
        exact hxh (hI.sched_holds hx hq he (by rw [hp]; exact List.mem_singleton_self _)).symm
      rw [hprocs p hpq]
  · by_cases hpq : p = q
    · subst hpq
      exact hok
    · have hold : ProcOk (m.setProc q f) p (T (.proc p)) := (hI.proc p).of_eq rfl (by rw [hprocs p hpq]) rfl
      refine hold.congr ?_ (hsame _)
      by_cases hxp : Thread.proc p = x
      · subst hxp
        rw [Function.update_self]
        apply hmode
        intro he
        cases he
        exact hpq rfl
      · rw [Function.update_of_ne hxp]

omit [DecidableEq H] [DecidableEq κ] in
/-- `allocproc` makes a context for an unused slot. -/
theorem setFresh (hI : HandOver m T) {q : ι} (hstate : (m.procs q).state = .unused) :
    HandOver { m with fresh := Function.update m.fresh q true } T := by
  refine ⟨hI.exec, hI.alone, hI.locks, hI.nodup, hI.noff, hI.sie, fun h => (hI.sched h).of_eq rfl rfl fun _ _ _ => rfl,
    fun p => ?_⟩
  by_cases hpq : p = q
  · subst hpq
    cases hI.proc p with
    | gone mode held state => exact .gone mode held state (.inr (.inl hstate))
    | run mode _ _ state =>
      rw [state] at hstate
      cases hstate
    | leaving _ mode _ _ _ _ used => exact absurd hstate used
    | down mode _ _ _ used => exact absurd hstate used
  · exact (hI.proc p).of_eq rfl rfl (Function.update_of_ne hpq _ _)

omit [DecidableEq H] [DecidableEq ι] [DecidableEq κ] in
/-- A process that runs is RUNNING, and has no lock in common with the thread that executes
here. -/
theorem run_state (hI : HandOver m T) {p : ι} (hmode : (T (.proc p)).mode = .run) :
    (m.procs p).state = .running ∧ ∃ h, m.exec h = .proc p := by
  cases hI.proc p with
  | run _ h exec state => exact ⟨state, h, exec⟩
  | leaving dead mode => rw [hmode] at mode; cases mode
  | down mode => rw [hmode] at mode; cases mode
  | gone mode => rw [hmode] at mode; cases mode

omit [DecidableEq κ] in
/-- Another thread changes the state of a process, whose lock it holds. -/
theorem setOther (hI : HandOver m T) (hx : m.exec m.hart = x) (hstage : (T x).mode = .loop ∨ (T x).mode = .run)
    {q : ι} (hq : .proc q ∈ (T x).held) (hne : x ≠ .proc q) {f : Proc ι κ → Proc ι κ}
    (hstate : (m.procs q).state ≠ .running)
    (hdown : (m.procs q).state ≠ .unused → (m.procs q).state ≠ .zombie →
      (f (m.procs q)).state ≠ .unused ∧ (f (m.procs q)).state ≠ .zombie)
    (hgone : m.fresh q = true ∧ (m.procs q).state ≠ .zombie ∨ (m.procs q).state = .unused ∨ (m.procs q).state = .zombie →
      m.fresh q = true ∧ (f (m.procs q)).state ≠ .zombie ∨ (f (m.procs q)).state = .unused ∨
        (f (m.procs q)).state = .zombie) :
    HandOver (m.setProc q f) T := by
  have hexec := hI.not_executed hx hq hne hstate
  have hself : (m.setProc q f).procs q = f (m.procs q) := Function.update_self ..
  rw [← Function.update_eq_self x T]
  refine hI.setProc hx hstage hq rfl (fun _ => rfl) ?_
  rw [Function.update_eq_self]
  cases hI.proc q with
  | run mode h exec => exact absurd exec (hexec h)
  | leaving dead mode h exec => exact absurd exec (hexec h)
  | down mode held state saved used alive =>
    have h := hdown used alive
    rw [← hself] at h
    exact .down mode held (fun h he => absurd he (hexec h)) saved h.1 h.2
  | gone mode held state stage =>
    have h := hgone stage
    rw [← hself] at h
    exact .gone mode held (fun h he => absurd he (hexec h)) h

omit [DecidableEq κ] in
/-- A section that changes no state, or wakes up the process. -/
theorem touch (hI : HandOver m T) (hx : m.exec m.hart = x) (hstage : (T x).mode = .loop ∨ (T x).mode = .run)
    {q : ι} (hq : .proc q ∈ (T x).held) {f : Proc ι κ → Proc ι κ}
    (hstate : (f (m.procs q)).state = (m.procs q).state ∨
      (m.procs q).state = .sleeping ∧ (f (m.procs q)).state = .runnable) : HandOver (m.setProc q f) T := by
  have hself : (m.setProc q f).procs q = f (m.procs q) := Function.update_self ..
  obtain hsame | ⟨hsleep, hrun⟩ := hstate
  · rw [← Function.update_eq_self x T]
    refine hI.setProc hx hstage hq rfl (fun _ => rfl) ?_
    rw [Function.update_eq_self]
    exact (hI.proc q).of_eq rfl ((congrArg Proc.state hself).trans hsame) rfl
  · have hne : x ≠ .proc q := by
      intro hxq
      subst hxq
      obtain hl | hr := hstage
      · cases hI.proc q with
        | run mode => rw [hl] at mode; cases mode
        | leaving dead mode => rw [hl] at mode; cases mode
        | down mode => rw [hl] at mode; cases mode
        | gone mode => rw [hl] at mode; cases mode
      · rw [(hI.run_state hr).1] at hsleep
        cases hsleep
    refine hI.setOther hx hstage hq hne (by rw [hsleep]; exact fun h => nomatch h) ?_ ?_
    · rw [hrun]
      exact fun _ _ => ⟨fun h => (nomatch h), fun h => (nomatch h)⟩
    · rw [hsleep, hrun]
      exact fun h => .inl ⟨h.elim (fun h => h.1) fun h => h.elim (fun h => (nomatch h)) fun h => (nomatch h), fun h => (nomatch h)⟩

omit [DecidableEq κ] in
/-- The running process gives up its hart. -/
theorem pause (hI : HandOver m T) {p : ι} (hx : m.exec m.hart = .proc p) (hmode : (T (.proc p)).mode = .run)
    (hp : .proc p ∈ (T (.proc p)).held) {f : Proc ι κ → Proc ι κ} {d : Bool}
    (hstate : (f (m.procs p)).state ≠ .running) (hused : (f (m.procs p)).state ≠ .unused)
    (hdead : (f (m.procs p)).state = .zombie ↔ d = true) (ht : t.mode = .leaving d)
    (hheld : t.held = (T (.proc p)).held) : HandOver (m.setProc p f) (Function.update T (.proc p) t) := by
  have hself : (m.setProc p f).procs p = f (m.procs p) := Function.update_self ..
  refine hI.setProc hx (.inr hmode) hp hheld (fun h => absurd rfl h) ?_
  rw [Function.update_self]
  rw [← hself] at hstate hused hdead
  exact .leaving d ht m.hart hx (hheld ▸ hp) hstate hused hdead

/-! ### Switching -/

omit [DecidableEq κ] in
/-- The scheduler chooses a runnable process. -/
theorem choose (hI : HandOver m T) {h : H} (hx : m.exec m.hart = .sched h) {t : Token ι κ} (ht : T (.sched h) = t)
    {q : ι} (hheld : t.held = [.proc q]) (hstate : (m.procs q).state = .runnable) :
    HandOver ((m.setProc q fun x => { x with state := .running }).setCpu fun c => { c with proc := some q })
      (Function.update T (.sched h) { t with mode := .chosen q }) := by
  have hh := hI.sched_here hx
  have hq : .proc q ∈ (T (.sched h)).held := by
    rw [ht, hheld]
    exact List.mem_singleton_self _
  have honly : ∀ h', m.exec h' ≠ .proc q := by
    apply hI.not_executed hx hq (fun h => nomatch h)
    rw [hstate]
    exact fun h => nomatch h
  have hsame : ∀ y, (Function.update T (.sched h) { t with mode := .chosen q } y).held = (T y).held := by
    intro y
    by_cases hy : y = .sched h
    · subst hy
      rw [Function.update_self, ht]
    · rw [Function.update_of_ne hy]
  have hnoff := m.setCpu_same (fun c => { c with proc := some q }) (fun c => c.noff) fun _ => rfl
  have hsie := m.setCpu_same (fun c => { c with proc := some q }) (fun c => c.sie) fun _ => rfl
  refine ⟨hI.exec_kept hx _, hI.alone, fun l h' => ?_, fun h' => ?_, fun h' => ?_, fun h' hpos => ?_, fun h' => ?_,
    fun p => ?_⟩
  · rw [hsame]
    exact hI.locks l h'
  · rw [hsame]
    exact hI.nodup h'
  · rw [hsame]
    exact (hnoff h').trans (hI.noff h')
  · exact (hsie h').trans (hI.sie h' (lt_of_lt_of_eq hpos (hnoff h')))
  · by_cases hhh : h' = h
    · subst hhh
      rw [Function.update_self]
      refine .chosen q rfl (by rw [hh]; rw [hh] at hx; exact hx) hheld ?_ ?_ honly
      · show (Function.update m.cpus m.hart _ h').proc = _
        rw [hh, Function.update_self]
      · show (Function.update m.procs q _ q).state = _
        rw [Function.update_self]
    · have hne : Thread.sched h' ≠ Thread.sched (ι := ι) h := fun he => hhh (Thread.sched.inj he)
      rw [Function.update_of_ne hne]
      refine (hI.sched h').of_eq rfl ?_ fun p hp he => ?_
      · show (Function.update m.cpus m.hart _ h').proc = _
        rw [Function.update_of_ne (by rw [← hh]; exact hhh)]
      · have hpq : p ≠ q := by
          intro hpq
          subst hpq
          exact hne (hI.sched_holds hx hq he (by rw [hp]; exact List.mem_singleton_self _)).symm
        show (Function.update m.procs q _ p).state = _
        rw [Function.update_of_ne hpq]
  · rw [Function.update_of_ne Thread.proc_ne]
    by_cases hpq : p = q
    · subst hpq
      have hnew : (Function.update m.procs p { m.procs p with state := .running } p).state = ProcState.running := by
        rw [Function.update_self]
      cases hI.proc p with
      | run mode h' exec => exact absurd exec (honly h')
      | leaving dead mode h' exec => exact absurd exec (honly h')
      | down mode held state saved used alive =>
        refine .down mode held (fun _ _ => hnew) saved ?_ ?_
        · exact fun he => nomatch hnew.symm.trans he
        · exact fun he => nomatch hnew.symm.trans he
      | gone mode held state stage =>
        obtain hfresh | hun | hzo := stage
        · exact .gone mode held (fun _ _ => hnew) (.inl ⟨hfresh.1, fun he => nomatch hnew.symm.trans he⟩)
        · rw [hun] at hstate
          cases hstate
        · rw [hzo] at hstate
          cases hstate
    · exact (hI.proc p).of_eq rfl (congrArg Proc.state (Function.update_of_ne hpq _ _)) rfl

omit [DecidableEq ι] [DecidableEq κ] in
theorem exec_there {y : Thread H ι} {h : H} (hne : h ≠ m.hart) : (m.setExec y).exec h = m.exec h :=
  Function.update_of_ne hne _ _

omit [DecidableEq ι] [DecidableEq κ] in
theorem exec_here {y : Thread H ι} : (m.setExec y).exec m.hart = y := Function.update_self ..

omit [DecidableEq κ] in
/-- A thread hands its locks over to the thread that its hart executes next. -/
theorem switch (hI : HandOver m T) (hx : m.exec m.hart = x) {y : Thread H ι} (hy : ∀ h, m.exec h ≠ y)
    (hheld : (T y).held = (T x).held) (t : Token ι κ) :
    (∀ h h', (m.setExec y).exec h = (m.setExec y).exec h' → h = h') ∧
    ∀ h, ((Function.update T x t) ((m.setExec y).exec h)).held = (T (m.exec h)).held := by
  have hyx : y ≠ x := fun he => hy m.hart (hx.trans he.symm)
  constructor
  · intro h h' he
    by_cases hh : h = m.hart
    · by_cases hh' : h' = m.hart
      · rw [hh, hh']
      · rw [hh, exec_here, exec_there hh'] at he
        exact absurd he.symm (hy h')
    · by_cases hh' : h' = m.hart
      · rw [hh', exec_here, exec_there hh] at he
        exact absurd he (hy h)
      · rw [exec_there hh, exec_there hh'] at he
        exact hI.alone h h' he
  · intro h
    by_cases hh : h = m.hart
    · rw [hh, exec_here, Function.update_of_ne hyx, hheld, hx]
    · rw [exec_there hh]
      have hne : m.exec h ≠ x := fun he => hh (hI.alone h m.hart (he.trans hx.symm))
      rw [Function.update_of_ne hne]

omit [DecidableEq ι] [DecidableEq κ] in
/-- The scheduler of a hart that goes on executing the same thread. -/
theorem sched_switch (hI : HandOver m T) (hx : m.exec m.hart = x) {y : Thread H ι} (hy : ∀ h, m.exec h ≠ y)
    (hheld : (T y).held = (T x).held) {m' : Machine H ι κ} (hexec : m'.exec = (m.setExec y).exec) (hcpus : m'.cpus = m.cpus)
    (hprocs : m'.procs = m.procs) {h : H} (hh : h ≠ m.hart) : SchedOk m' h (T (.sched h)) := by
  have hsame : m'.exec h = m.exec h := by rw [hexec, exec_there hh]
  cases hI.sched h with
  | loop mode exec cpu => exact .loop mode (hsame.trans exec) (by rw [hcpus]; exact cpu)
  | chosen p mode exec held cpu state only =>
    refine .chosen p mode (hsame.trans exec) held (by rw [hcpus]; exact cpu) (by rw [hprocs]; exact state) fun h' => ?_
    rw [hexec]
    by_cases hh' : h' = m.hart
    · -- The thread switched to is not the chosen one: the lock of that one is held at `h`.
      rw [hh', exec_here]
      intro hyp
      have hmine : .proc p ∈ (T (m.exec m.hart)).held := by
        rw [hx, ← hheld, hyp, (hI.proc p).held_waiting (hyp ▸ hy)]
        exact List.mem_singleton_self _
      have htheirs : .proc p ∈ (T (m.exec h)).held := by
        rw [exec, held]
        exact List.mem_singleton_self _
      exact hh (hI.one_holder htheirs hmine)
    · rw [exec_there hh']
      exact only h'
  | away p mode held cpu back =>
    refine .away p mode held (by rw [hcpus]; exact cpu) ?_
    rw [hsame, hprocs]
    exact back

omit [DecidableEq ι] [DecidableEq κ] in
/-- A process that is not switched away from. -/
theorem proc_switch (hI : HandOver m T) (hx : m.exec m.hart = x) {y : Thread H ι} {m' : Machine H ι κ}
    (hexec : m'.exec = (m.setExec y).exec) (hprocs : m'.procs = m.procs) {p : ι} (hfresh : m'.fresh p = m.fresh p)
    (hrun : y = .proc p → (m.procs p).state = .running) (hp : x ≠ .proc p) : ProcOk m' p (T (.proc p)) := by
  have hstay : ∀ h, m.exec h = .proc p → m'.exec h = .proc p := by
    intro h he
    have hh : h ≠ m.hart := by
      intro hh
      rw [hh, hx] at he
      exact hp he
    rw [hexec, exec_there hh]
    exact he
  have hstate : (∀ h, m.exec h = .proc p → (m.procs p).state = .running) →
      ∀ h, m'.exec h = .proc p → (m.procs p).state = .running := by
    intro hold h he
    rw [hexec] at he
    by_cases hh : h = m.hart
    · rw [hh, exec_here] at he
      exact hrun he
    · rw [exec_there hh] at he
      exact hold h he
  cases hI.proc p with
  | run mode h exec state => exact .run mode h (hstay h exec) (hprocs ▸ state)
  | leaving dead mode h exec held state used last =>
    exact .leaving dead mode h (hstay h exec) held (hprocs ▸ state) (hprocs ▸ used) (hprocs ▸ last)
  | down mode held state saved used alive =>
    exact .down mode held (hprocs ▸ hstate state) (hfresh.trans saved) (hprocs ▸ used) (hprocs ▸ alive)
  | gone mode held state stage => exact .gone mode held (hprocs ▸ hstate state) (by rw [hfresh, hprocs]; exact stage)

omit [DecidableEq κ] in
/-- A switch keeps the invariant where it keeps the clauses of the two threads that take part. -/
theorem switched (hI : HandOver m T) (hx : m.exec m.hart = x) {y : Thread H ι} (hy : ∀ h, m.exec h ≠ y)
    (hheld : (T y).held = (T x).held) {m' : Machine H ι κ} (hexec : m'.exec = (m.setExec y).exec) (hlocks : m'.locks = m.locks)
    (hcpus : m'.cpus = m.cpus) (hprocs : m'.procs = m.procs) (hfresh : ∀ p, x ≠ .proc p → m'.fresh p = m.fresh p)
    (hrun : ∀ p, y = .proc p → (m.procs p).state = .running)
    (hto : y = .sched m.hart ∨ ∃ p, y = .proc p ∧ (Function.update T x t (.sched m.hart)).mode = .away p)
    (hsched : SchedOk m' m.hart (Function.update T x t (.sched m.hart))) (hproc : ∀ p, x = .proc p → ProcOk m' p t) :
    HandOver m' (Function.update T x t) := by
  obtain ⟨halone, hsame⟩ := hI.switch hx hy hheld t
  have hother : ∀ h, h ≠ m.hart → Thread.sched h ≠ x := by
    intro h hh he
    rw [← he] at hx
    exact hh (hI.sched_here hx)
  refine ⟨fun h => ?_, ?_, fun l h => ?_, fun h => ?_, fun h => ?_, ?_, fun h => ?_, fun p => ?_⟩
  · rw [hexec]
    by_cases hh : h = m.hart
    · subst hh
      rw [exec_here]
      exact hto
    · rw [exec_there hh]
      exact hI.exec_kept hx t h
  · rw [hexec]
    exact halone
  · rw [hlocks, hexec, hsame]
    exact hI.locks l h
  · rw [hexec, hsame]
    exact hI.nodup h
  · rw [hcpus, hexec, hsame]
    exact hI.noff h
  · rw [hcpus]
    exact hI.sie
  · by_cases hh : h = m.hart
    · subst hh
      exact hsched
    · rw [Function.update_of_ne (hother h hh)]
      exact hI.sched_switch hx hy hheld hexec hcpus hprocs hh
  · by_cases hp : x = .proc p
    · subst hp
      rw [Function.update_self]
      exact hproc p rfl
    · rw [Function.update_of_ne fun he => hp he.symm]
      exact hI.proc_switch hx hexec hprocs (hfresh p hp) (hrun p) hp

omit [DecidableEq κ] in
/-- A scheduler switches to the process it has chosen. -/
theorem go (hI : HandOver m T) {h : H} (hx : m.exec m.hart = .sched h) {q : ι} (hmode : (T (.sched h)).mode = .chosen q) :
    HandOver (m.setExec (.proc q)) (Function.update T (.sched h) { T (.sched h) with mode := .away q }) := by
  have hh := hI.sched_here hx
  subst hh
  cases hI.sched m.hart with
  | loop mode => rw [hmode] at mode; cases mode
  | away p mode => rw [hmode] at mode; cases mode
  | chosen p mode exec held cpu state only =>
    rw [hmode] at mode
    cases mode
    have hdown := (hI.proc q).held_waiting only
    refine hI.switched hx only (hdown.trans held.symm) rfl rfl rfl rfl (fun _ _ => rfl) ?_ (.inr ⟨q, rfl, ?_⟩) ?_ ?_
    · intro p hp
      cases hp
      exact state
    · rw [Function.update_self]
    · rw [Function.update_self]
      exact .away q rfl held cpu (.inl exec_here)
    · exact fun p hp => nomatch hp

omit [DecidableEq κ] in
/-- A process whose context has been restored runs. -/
theorem arrive (hI : HandOver m T) {p : ι} (hx : m.exec m.hart = .proc p)
    (hmode : (T (.proc p)).mode = .down ∨ (T (.proc p)).mode = .gone) (f : Cpu ι → Cpu ι)
    (hf : ∀ c, (f c).proc = c.proc ∧ (f c).noff = c.noff ∧ (f c).sie = c.sie) :
    HandOver (m.setCpu f) (Function.update T (.proc p) { T (.proc p) with mode := .run }) := by
  obtain ⟨hheld, hstate⟩ := hI.arrived hx hmode
  have hsame : ∀ y, (Function.update T (.proc p) { T (.proc p) with mode := .run } y).held = (T y).held := by
    intro y
    by_cases hy : y = .proc p
    · subst hy
      rw [Function.update_self]
    · rw [Function.update_of_ne hy]
  have hproc := m.setCpu_same f (fun c => c.proc) fun c => (hf c).1
  have hnoff := m.setCpu_same f (fun c => c.noff) fun c => (hf c).2.1
  have hsie := m.setCpu_same f (fun c => c.sie) fun c => (hf c).2.2
  refine ⟨hI.exec_kept hx _, hI.alone, fun l h => ?_, fun h => ?_, fun h => ?_, fun h hpos => ?_, fun h => ?_, fun q => ?_⟩
  · rw [hsame]
    exact hI.locks l h
  · rw [hsame]
    exact hI.nodup h
  · rw [hsame]
    exact (hnoff h).trans (hI.noff h)
  · exact (hsie h).trans (hI.sie h (lt_of_lt_of_eq hpos (hnoff h)))
  · rw [Function.update_of_ne Thread.sched_ne]
    exact (hI.sched h).of_eq rfl (hproc h) fun _ _ _ => rfl
  · by_cases hq : q = p
    · subst hq
      rw [Function.update_self]
      exact .run rfl m.hart hx hstate
    · rw [Function.update_of_ne (fun he => hq (Thread.proc.inj he))]
      exact (hI.proc q).of_eq rfl rfl rfl

omit [DecidableEq κ] in
/-- A process switches to the scheduler of its hart. -/
theorem leave (hI : HandOver m T) {p : ι} (hx : m.exec m.hart = .proc p) {d : Bool}
    (hmode : (T (.proc p)).mode = .leaving d) (hheld : (T (.proc p)).held = [.proc p]) :
    HandOver (m.toSched p)
      (Function.update T (.proc p) { T (.proc p) with mode := if d = true then .gone else .down }) := by
  obtain hs | ⟨p', he, haway⟩ := hI.exec m.hart
  · rw [hx] at hs
    cases hs
  rw [hx] at he
  cases he
  have hnever : ∀ h, m.exec h ≠ .sched m.hart := by
    intro h he
    have := hI.exec_sched he
    subst this
    rw [hx] at he
    cases he
  have hgone : ∀ h, (m.toSched p).exec h ≠ .proc p := by
    intro h he
    by_cases hh : h = m.hart
    · subst hh
      exact nomatch (exec_here (m := m) (y := .sched m.hart)).symm.trans he
    · exact hh (hI.alone h m.hart (((exec_there hh).symm.trans he).trans hx.symm))
  cases hI.sched m.hart with
  | loop mode => rw [haway] at mode; cases mode
  | chosen q mode => rw [haway] at mode; cases mode
  | away q mode held cpu _ =>
    rw [haway] at mode
    cases mode
    cases hI.proc p with
    | run mode => rw [hmode] at mode; cases mode
    | down mode => rw [hmode] at mode; cases mode
    | gone mode => rw [hmode] at mode; cases mode
    | leaving d' mode _ _ _ state used last =>
      rw [hmode] at mode
      cases mode
      refine hI.switched hx hnever (held.trans hheld.symm) rfl rfl rfl rfl ?_ ?_ (.inl rfl) ?_ ?_
      · exact fun q hq => Function.update_of_ne (fun he => hq (congrArg Thread.proc he.symm)) _ _
      · exact fun q hq => nomatch hq
      · rw [Function.update_of_ne Thread.sched_ne]
        exact .away p haway held cpu (.inr ⟨exec_here, state⟩)
      · intro q hq
        cases hq
        cases d with
        | true => exact .gone rfl hheld (fun h he => absurd he (hgone h)) (.inr (.inr (last.mpr rfl)))
        | false =>
          refine .down rfl hheld (fun h he => absurd he (hgone h)) (Function.update_self ..) used fun hz => ?_
          exact nomatch last.mp hz

omit [DecidableEq κ] in
/-- The scheduler is back: its process has switched to it. -/
theorem back (hI : HandOver m T) {h : H} (hx : m.exec m.hart = .sched h) {q : ι} (hmode : (T (.sched h)).mode = .away q) :
    HandOver (m.setCpu fun c => { c with proc := none })
      (Function.update T (.sched h) { T (.sched h) with mode := .loop }) := by
  have hh := hI.sched_here hx
  subst hh
  have hsame : ∀ y, (Function.update T (.sched m.hart) { T (.sched m.hart) with mode := .loop } y).held = (T y).held := by
    intro y
    by_cases hy : y = .sched m.hart
    · subst hy
      rw [Function.update_self]
    · rw [Function.update_of_ne hy]
  have hnoff := m.setCpu_same (fun c => { c with proc := none }) (fun c => c.noff) fun _ => rfl
  have hsie := m.setCpu_same (fun c => { c with proc := none }) (fun c => c.sie) fun _ => rfl
  refine ⟨hI.exec_kept hx _, hI.alone, fun l h => ?_, fun h => ?_, fun h => ?_, fun h hpos => ?_, fun h => ?_, fun q => ?_⟩
  · rw [hsame]
    exact hI.locks l h
  · rw [hsame]
    exact hI.nodup h
  · rw [hsame]
    exact (hnoff h).trans (hI.noff h)
  · exact (hsie h).trans (hI.sie h (lt_of_lt_of_eq hpos (hnoff h)))
  · by_cases hh : h = m.hart
    · subst hh
      rw [Function.update_self]
      refine .loop rfl hx ?_
      show (Function.update m.cpus m.hart _ m.hart).proc = none
      rw [Function.update_self]
    · rw [Function.update_of_ne fun he => hh (Thread.sched.inj he)]
      refine (hI.sched h).of_eq rfl ?_ fun _ _ _ => rfl
      show (Function.update m.cpus m.hart _ h).proc = _
      rw [Function.update_of_ne hh]
  · rw [Function.update_of_ne Thread.proc_ne]
    exact (hI.proc q).of_eq rfl rfl rfl

end Sections
end HandOver
end Farron.Harts
