import Farron.Proc.Family

/-! The sections of `kernel/proc.c`, and the invariant of all of them.

Beside `HandOver` and `Family` the invariant keeps the books of exits: every process that has
exited is a zombie or has been freed by its parent (`Ledger`). -/
namespace Farron.Harts
open Resumption
variable {H ι κ : Type} [DecidableEq H] [DecidableEq ι] [DecidableEq κ]

/-- What was freed after it had exited. -/
def Machine.reaps (m : Machine H ι κ) : List (Free ι) := m.frees.filter fun r => r.state = .zombie

/-- The pids and statuses of those that `p` freed. -/
def Machine.reapedBy (m : Machine H ι κ) (p : ι) : List (Int × Int) :=
  (m.reaps.filter fun r => r.by' = p).map fun r => (r.exit.pid, r.exit.xstate)

/-- Is `x` the zombie that exit `e` has left? -/
def Proc.leftBy (x : Proc ι κ) (e : Exit ι) : Prop := x.state = .zombie ∧ x.pid = e.pid ∧ x.xstate = e.xstate

instance (x : Proc ι κ) (e : Exit ι) : Decidable (x.leftBy e) := inferInstanceAs (Decidable (_ ∧ _))

structure Ledger (m : Machine H ι κ) (T : Thread H ι → Token ι κ) : Prop where
  balance : ∀ e, m.exits.count e = (m.reaps.map Free.exit).count e + if (m.procs e.slot).leftBy e then 1 else 0
  frees : ∀ r ∈ m.frees, r.running = false ∧ (r.state = .unused ∨ r.state = .zombie ∧ r.parent = some r.by')
  reaped : ∀ p, (T (.proc p)).reaped = m.reapedBy p
  pid : ∀ q, 0 ≤ (m.procs q).pid
  nextpid : 0 ≤ m.nextpid

structure Inv (init : ι) (m : Machine H ι κ) (T : Thread H ι → Token ι κ) : Prop where
  handOver : HandOver m T
  family : Family init m T
  ledger : Ledger m T

omit [DecidableEq H] [DecidableEq ι] [DecidableEq κ] in
theorem Settled.leftBy {x y : Proc ι κ} (h : Settled x y) (e : Exit ι) : y.leftBy e ↔ x.leftBy e := by
  constructor
  · rintro ⟨hz, hp, hs⟩
    obtain ⟨h1, h2⟩ := h.exit (h.zombie.mp hz)
    exact ⟨h.zombie.mp hz, h1.symm.trans hp, h2.symm.trans hs⟩
  · rintro ⟨hz, hp, hs⟩
    obtain ⟨h1, h2⟩ := h.exit hz
    exact ⟨h.zombie.mpr hz, h1.trans hp, h2.trans hs⟩

variable {init : ι} {m m' : Machine H ι κ} {T : Thread H ι → Token ι κ} {x : Thread H ι} {t : Token ι κ}

omit [DecidableEq κ] in
theorem Ledger.settled (h : Ledger m T) (hprocs : ∀ q, Settled (m.procs q) (m'.procs q)) (hexits : m'.exits = m.exits)
    (hfrees : m'.frees = m.frees) (hnext : 0 ≤ m'.nextpid) (ht : t.reaped = (T x).reaped) :
    Ledger m' (Function.update T x t) := by
  have hreaps : m'.reaps = m.reaps := by
    unfold Machine.reaps
    rw [hfrees]
  refine ⟨fun e => ?_, ?_, fun p => ?_, fun q => (hprocs q).pid (h.pid q), hnext⟩
  · rw [hexits, hreaps, h.balance e]
    simp only [(hprocs e.slot).leftBy e]
  · rw [hfrees]
    exact h.frees
  · have hsame : (Function.update T x t (.proc p)).reaped = (T (.proc p)).reaped := by
      by_cases hp : Thread.proc p = x
      · subst hp
        rw [Function.update_self, ht]
      · rw [Function.update_of_ne hp]
    rw [hsame, h.reaped p]
    unfold Machine.reapedBy
    rw [hreaps]

/-! ### Sections that are mild -/

section Sections
variable {mode : Mode ι} {held : List (Lock ι κ)} {k : Task ι} {rs : List (Int × Int)}

omit [DecidableEq κ] in
/-- A section whose changes to the process table are mild. -/
theorem Inv.mild (h : Inv init m T) (hT : T x = ⟨mode, held, k, rs⟩) {mode' : Mode ι} {held' : List (Lock ι κ)} {k' : Task ι}
    (hH : HandOver m' (Function.update T x ⟨mode', held', k', rs⟩)) (hprocs : ∀ q, Mild (m.procs q) (m'.procs q))
    (hheard : ∀ p q, p ≠ init → (m'.procs p).awaits p → (m'.procs q).parent = some p → (m'.procs q).state ≠ .zombie)
    (hfresh : ∀ p q s, .proc p ≠ x → (T (.proc p)).task = .forking q s → m'.fresh q = m.fresh q) (hexits : m'.exits = m.exits)
    (hfrees : m'.frees = m.frees) (hnext : 0 ≤ m'.nextpid)
    (htask : ∀ p, x = .proc p → TaskOk init m p ⟨mode, held, k, rs⟩ → TaskOk init m' p ⟨mode', held', k', rs⟩)
    (hkeep : ∀ q, k = .forking q .linked → k' = .forking q .linked) :
    Inv init m' (Function.update T x ⟨mode', held', k', rs⟩) := by
  refine ⟨hH, h.family.mild hprocs hheard hfresh (fun p hp => htask p hp ?_) ?_,
    h.ledger.settled (fun q => (hprocs q).toSettled) hexits hfrees hnext (by rw [hT])⟩
  · have := h.family.task p
    rw [← hp, hT] at this
    exact this
  · rw [hT]
    exact hkeep

omit [DecidableEq κ] in
/-- A section that leaves the process table alone. -/
theorem Inv.quiet (h : Inv init m T) (hT : T x = ⟨mode, held, k, rs⟩) {mode' : Mode ι} {held' : List (Lock ι κ)} {k' : Task ι}
    (hH : HandOver m' (Function.update T x ⟨mode', held', k', rs⟩)) (hprocs : m'.procs = m.procs)
    (hfresh : ∀ p q s, .proc p ≠ x → (T (.proc p)).task = .forking q s → m'.fresh q = m.fresh q) (hexits : m'.exits = m.exits)
    (hfrees : m'.frees = m.frees) (hnext : 0 ≤ m'.nextpid)
    (htask : ∀ p, x = .proc p → TaskOk init m p ⟨mode, held, k, rs⟩ → TaskOk init m' p ⟨mode', held', k', rs⟩)
    (hkeep : ∀ q, k = .forking q .linked → k' = .forking q .linked) :
    Inv init m' (Function.update T x ⟨mode', held', k', rs⟩) := by
  refine h.mild hT hH (fun q => ?_) ?_ hfresh hexits hfrees hnext htask hkeep
  · rw [hprocs]
    exact .refl _
  · rw [hprocs]
    exact h.family.heard

omit [DecidableEq H] [DecidableEq ι] [DecidableEq κ] in
/-- A task survives what keeps its lock. -/
theorem TaskOk.keep {p : ι} {held' : List (Lock ι κ)} (h : TaskOk init m p ⟨mode, held, k, rs⟩) (hprocs : m'.procs = m.procs)
    (hfresh : m'.fresh = m.fresh) (hlock : ∀ o, k.lock p = some o → .proc o ∈ held → .proc o ∈ held') :
    TaskOk init m' p ⟨mode, held', k, rs⟩ :=
  h.mild (fun q => by rw [hprocs]; exact .refl _) rfl (fun q _ _ => by rw [hfresh]) fun o ho =>
    ⟨rfl, hlock o ho (h.locked ho)⟩

theorem Inv.acquire (h : Inv init m T) (hx : m.exec m.hart = x) (hT : T x = ⟨mode, held, k, rs⟩)
    (hstage : mode = .loop ∨ mode = .run) {l : Lock ι κ} (hfree : m.locks l = none) :
    Inv init (m.pushOff.setLock l (some m.hart)) (Function.update T x ⟨mode, l :: held, k, rs⟩) := by
  have hH := h.handOver.acquire hx (by rw [hT]; exact hstage) hfree
  rw [hT] at hH
  exact h.quiet hT hH rfl (fun _ _ _ _ _ => rfl) rfl rfl h.ledger.nextpid
    (fun p _ hk => hk.keep rfl rfl fun o _ ho => List.mem_cons_of_mem _ ho) fun _ hk => hk

/-- What becomes of a task when the lock `l` is released: it goes on without it, or is over. -/
def Task.Released (x : Thread H ι) (held : List (Lock ι κ)) (l : Lock ι κ) (k k' : Task ι) : Prop :=
  k' = k ∧ (∀ p o, x = .proc p → k.lock p = some o → .proc o ∈ held → .proc o ∈ held.erase l) ∨
    k' = .none ∧ ∀ q, k ≠ .forking q .linked

theorem Inv.release (h : Inv init m T) (hx : m.exec m.hart = x) (hT : T x = ⟨mode, held, k, rs⟩)
    {l : Lock ι κ} (hl : l ∈ held)
    (hstage : mode = .loop ∨ mode = .run ∨ ∃ p d, x = .proc p ∧ mode = .leaving d ∧ .proc p ∈ held.erase l)
    {k' : Task ι} (hk : k.Released x held l k') :
    Inv init (m.setLock l none).popOff (Function.update T x ⟨mode, held.erase l, k', rs⟩) := by
  have hH := h.handOver.release hx (l := l) (by rw [hT]; exact hl) (by rw [hT]; exact hstage)
  rw [hT] at hH
  refine h.quiet hT (hH.retask rfl rfl) rfl (fun _ _ _ _ _ => rfl) rfl rfl h.ledger.nextpid ?_ ?_
  · intro p hp htask
    obtain ⟨rfl, hlock⟩ | ⟨rfl, _⟩ := hk
    · exact htask.keep rfl rfl fun o => hlock p o hp
    · exact .none rfl
  · intro q hq
    obtain ⟨rfl, _⟩ | ⟨_, hnot⟩ := hk
    · exact hq
    · exact absurd hq (hnot q)

omit [DecidableEq κ] in
/-- A process takes up another task. -/
theorem Inv.retask {p : ι} (h : Inv init m T) (hT : T (.proc p) = ⟨mode, held, k, rs⟩) {k' : Task ι}
    (htask : TaskOk init m p ⟨mode, held, k, rs⟩ → TaskOk init m p ⟨mode, held, k', rs⟩)
    (hkeep : ∀ q, k = .forking q .linked → k' = .forking q .linked) :
    Inv init m (Function.update T (.proc p) ⟨mode, held, k', rs⟩) := by
  have hH : HandOver m (Function.update T (.proc p) ⟨mode, held, k, rs⟩) := by
    rw [← hT, Function.update_eq_self]
    exact h.handOver
  refine h.quiet hT (hH.retask rfl rfl) rfl (fun _ _ _ _ _ => rfl) rfl rfl h.ledger.nextpid ?_ hkeep
  rintro q ⟨⟩
  exact htask

omit [DecidableEq κ] in
theorem Inv.intr (h : Inv init m T) (hx : m.exec m.hart = x) (hT : T x = ⟨mode, [], k, rs⟩)
    (hstage : mode = .loop ∨ mode = .run) (on : Bool) : Inv init (m.intr on) T := by
  have hH := h.handOver.intr hx (by rw [hT]) (by rw [hT]; exact hstage) on
  rw [← Function.update_eq_self x T, hT] at hH ⊢
  exact h.quiet hT hH rfl (fun _ _ _ _ _ => rfl) rfl rfl h.ledger.nextpid
    (fun p _ hk => hk.keep rfl rfl fun _ _ ho => ho) fun _ hk => hk

omit [DecidableEq H] [DecidableEq κ] in
/-- What a section does to one process is mild if it is so for this one. -/
theorem Mild.setProc {q : ι} {f : Proc ι κ → Proc ι κ} (h : Mild (m.procs q) (f (m.procs q))) (r : ι) :
    Mild (m.procs r) ((m.setProc q f).procs r) := by
  by_cases hr : r = q
  · subst hr
    show Mild _ (Function.update m.procs r _ r)
    rw [Function.update_self]
    exact h
  · show Mild _ (Function.update m.procs q _ r)
    rw [Function.update_of_ne hr]
    exact .refl _

omit [DecidableEq H] [DecidableEq κ] in
/-- Nobody goes to sleep in `wait` by a section that does not say so. -/
theorem Machine.setProc_awaits {q : ι} {f : Proc ι κ → Proc ι κ} (h : (f (m.procs q)).awaits q → (m.procs q).awaits q)
    (r : ι) (hr : ((m.setProc q f).procs r).awaits r) : (m.procs r).awaits r := by
  by_cases hrq : r = q
  · subst hrq
    apply h
    have : (Function.update m.procs r (f (m.procs r)) r).awaits r := hr
    rw [Function.update_self] at this
    exact this
  · have : (Function.update m.procs q (f (m.procs q)) r).awaits r := hr
    rw [Function.update_of_ne hrq] at this
    exact this

omit [DecidableEq κ] in
/-- A section on a process whose lock is held, that changes no state or wakes it up. -/
theorem Inv.touch (h : Inv init m T) (hx : m.exec m.hart = x) (hT : T x = ⟨mode, held, k, rs⟩)
    (hstage : mode = .loop ∨ mode = .run) {q : ι} (hq : .proc q ∈ held) {f : Proc ι κ → Proc ι κ}
    (hstate : (f (m.procs q)).state = (m.procs q).state ∨
      (m.procs q).state = .sleeping ∧ (f (m.procs q)).state = .runnable)
    (hmild : Mild (m.procs q) (f (m.procs q))) (hawaits : (f (m.procs q)).awaits q → (m.procs q).awaits q) :
    Inv init (m.setProc q f) T := by
  have hH := h.handOver.touch hx (by rw [hT]; exact hstage) (by rw [hT]; exact hq) hstate
  rw [← Function.update_eq_self x T, hT] at hH ⊢
  exact h.mild hT hH (.setProc hmild) (h.family.heard_mild (.setProc hmild) (m.setProc_awaits hawaits))
    (fun _ _ _ _ _ => rfl) rfl rfl h.ledger.nextpid
    (fun p _ hk => hk.mild (.setProc hmild) rfl (fun _ _ _ => rfl) fun o ho => ⟨rfl, hk.locked ho⟩) fun _ hk => hk

omit [DecidableEq κ] in
/-- The running process is about to leave its hart. -/
theorem Inv.pause {p : ι} (h : Inv init m T) (hx : m.exec m.hart = .proc p) (hT : T (.proc p) = ⟨.run, held, k, rs⟩)
    (hp : .proc p ∈ held) {f : Proc ι κ → Proc ι κ} (hstate : (f (m.procs p)).state = .runnable ∨ (f (m.procs p)).state = .sleeping)
    (hmild : Mild (m.procs p) (f (m.procs p))) {k' : Task ι}
    (hheard : p ≠ init → (f (m.procs p)).awaits p → ∀ q, (m.procs q).parent = some p → (m.procs q).state ≠ .zombie)
    (hk : k' = k ∧ k.lock p = none ∨ k' = .none ∧ ∀ q, k ≠ .forking q .linked) :
    Inv init (m.setProc p f) (Function.update T (.proc p) ⟨.leaving false, held, k', rs⟩) := by
  have hne : (f (m.procs p)).state ≠ .running ∧ (f (m.procs p)).state ≠ .unused ∧ (f (m.procs p)).state ≠ .zombie := by
    obtain hs | hs := hstate <;> rw [hs] <;> exact ⟨fun h => (nomatch h), fun h => (nomatch h), fun h => (nomatch h)⟩
  have hH := h.handOver.pause (t := ⟨.leaving false, held, k', rs⟩) (d := false) hx (by rw [hT]) (by rw [hT]; exact hp)
    hne.1 hne.2.1 ⟨fun hz => absurd hz hne.2.2, fun hd => (nomatch hd)⟩ rfl (by rw [hT])
  refine h.mild hT hH (.setProc hmild) (fun r q hr haw hpar hz => ?_) (fun _ _ _ _ _ => rfl) rfl rfl h.ledger.nextpid ?_ ?_
  · rw [((Mild.setProc hmild) q).parent] at hpar
    have hzo := ((Mild.setProc hmild) q).zombie.mp hz
    by_cases hrp : r = p
    · subst hrp
      have haw : (Function.update m.procs r (f (m.procs r)) r).awaits r := haw
      rw [Function.update_self] at haw
      exact hheard hr haw q hpar hzo
    · have haw : (Function.update m.procs p (f (m.procs p)) r).awaits r := haw
      rw [Function.update_of_ne hrp] at haw
      exact h.family.heard r q hr haw hpar hzo
  · rintro q ⟨⟩ htask
    obtain ⟨rfl, hlock⟩ | ⟨rfl, _⟩ := hk
    · exact htask.mild (.setProc hmild) rfl (fun _ _ _ => rfl) fun o ho => nomatch hlock.symm.trans ho
    · exact .none rfl
  · intro q hq
    obtain ⟨rfl, hlock⟩ | ⟨_, hnot⟩ := hk
    · exact hq
    · exact absurd hq (hnot q)

/-! ### Switching -/

omit [DecidableEq κ] in
theorem Inv.choose {h : H} (hI : Inv init m T) (hx : m.exec m.hart = .sched h) {q : ι}
    (hT : T (.sched h) = ⟨.loop, [.proc q], k, rs⟩) (hstate : (m.procs q).state = .runnable) :
    Inv init ((m.setProc q fun x => { x with state := .running }).setCpu fun c => { c with proc := some q })
      (Function.update T (.sched h) ⟨.chosen q, [.proc q], k, rs⟩) := by
  have hH := hI.handOver.choose hx hT rfl hstate
  have hone : Mild (m.procs q) { m.procs q with state := .running } := by
    refine Mild.state ?_ ⟨fun h => (nomatch h), fun h => (nomatch h)⟩ rfl rfl
    rw [hstate]
    exact ⟨fun h => (nomatch h), fun h => (nomatch h)⟩
  have hmild : ∀ r, Mild (m.procs r) ((m.setProc q fun x => { x with state := .running }).procs r) := Mild.setProc hone
  have hawaits : ∀ r, ((m.setProc q fun x => { x with state := .running }).procs r).awaits r → (m.procs r).awaits r :=
    m.setProc_awaits fun h => (nomatch h.1)
  exact hI.mild hT hH hmild (hI.family.heard_mild hmild hawaits) (fun _ _ _ _ _ => rfl) rfl rfl hI.ledger.nextpid
    (fun p hp => (nomatch hp)) fun _ hk => hk

omit [DecidableEq κ] in
theorem Inv.go {h : H} (hI : Inv init m T) (hx : m.exec m.hart = .sched h) {q : ι}
    (hT : T (.sched h) = ⟨.chosen q, held, k, rs⟩) :
    Inv init (m.setExec (.proc q)) (Function.update T (.sched h) ⟨.away q, held, k, rs⟩) := by
  have hH := hI.handOver.go hx (q := q) (by rw [hT])
  rw [hT] at hH
  exact hI.quiet hT hH rfl (fun _ _ _ _ _ => rfl) rfl rfl hI.ledger.nextpid (fun p hp => nomatch hp) fun _ hk => hk

omit [DecidableEq κ] in
theorem Inv.back {h : H} (hI : Inv init m T) (hx : m.exec m.hart = .sched h) {q : ι}
    (hT : T (.sched h) = ⟨.away q, held, k, rs⟩) :
    Inv init (m.setCpu fun c => { c with proc := none }) (Function.update T (.sched h) ⟨.loop, held, k, rs⟩) := by
  have hH := hI.handOver.back hx (q := q) (by rw [hT])
  rw [hT] at hH
  exact hI.quiet hT hH rfl (fun _ _ _ _ _ => rfl) rfl rfl hI.ledger.nextpid (fun p hp => nomatch hp) fun _ hk => hk

omit [DecidableEq κ] in
theorem Inv.arrive {p : ι} (hI : Inv init m T) (hx : m.exec m.hart = .proc p) (hT : T (.proc p) = ⟨mode, held, k, rs⟩)
    (hmode : mode = .down ∨ mode = .gone) (f : Cpu ι → Cpu ι)
    (hf : ∀ c, (f c).proc = c.proc ∧ (f c).noff = c.noff ∧ (f c).sie = c.sie) (hk : k.lock p = none) :
    Inv init (m.setCpu f) (Function.update T (.proc p) ⟨.run, held, k, rs⟩) := by
  have hH := hI.handOver.arrive hx (by rw [hT]; exact hmode) f hf
  rw [hT] at hH
  refine hI.quiet hT hH rfl (fun _ _ _ _ _ => rfl) rfl rfl hI.ledger.nextpid ?_ fun _ hk => hk
  rintro q ⟨⟩ htask
  exact htask.mild (fun _ => .refl _) rfl (fun _ _ _ => rfl) fun o ho => nomatch hk.symm.trans ho

omit [DecidableEq κ] in
/-- The context of a process that switches is no longer the first one; nobody is making it. -/
theorem Inv.leave {p : ι} (hI : Inv init m T) (hx : m.exec m.hart = .proc p) {dead : Bool}
    (hT : T (.proc p) = ⟨.leaving dead, [.proc p], k, rs⟩) (hk : k.lock p = none) :
    Inv init (m.toSched p) (Function.update T (.proc p) ⟨if dead = true then .gone else .down, [.proc p], k, rs⟩) := by
  have hH := hI.handOver.leave hx (d := dead) (by rw [hT]) (by rw [hT])
  rw [hT] at hH
  refine hI.quiet hT hH rfl (fun r q s _ hs => ?_) rfl rfl hI.ledger.nextpid ?_ fun _ hk => hk
  · have hqp : q ≠ p := by
      rintro rfl
      cases hI.family.task r with
      | none task => rw [task] at hs; cases hs
      | waiting scanned child task => rw [task] at hs; cases hs
      | exiting parent orphaned child task => rw [task] at hs; cases hs
      | forking q' stage task mode held state =>
        rw [task] at hs
        cases hs
        cases hI.handOver.proc q with
        | run mode => rw [hT] at mode; cases mode
        | leaving d mode _ _ _ _ used => exact used state
        | down mode => rw [hT] at mode; cases mode
        | gone mode => rw [hT] at mode; cases mode
    exact Function.update_of_ne hqp _ _
  · rintro q ⟨⟩ htask
    refine htask.mild (fun _ => .refl _) rfl (fun q s hs => ?_) fun o ho => nomatch hk.symm.trans ho
    have hs : k = .forking q s := hs
    rw [hs] at hk
    cases hk

end Sections
end Farron.Harts
