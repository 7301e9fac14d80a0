import Farron.Intr.Nesting
import Farron.Proc.Runs

/-! Runs in which threads disable interrupts in nests.

One triple for each function, then every call keeps the invariant, and with it what the log says of
every run from boot (`nesting`). -/
namespace Farron.Intr
open Resumption Harts
variable {H ι κ : Type} [DecidableEq H] [DecidableEq ι] [DecidableEq κ]

/-- The triple of a thread. It does not stop. -/
abbrev Does (x : Thread H ι) {α : Type} (c : Code H ι κ α) (n : Nest ι κ) (Q : α → Nest ι κ → Prop) : Prop :=
  Triple Inv (fun _ w => w.thread = x) (fun _ _ => True) (fun _ => False) x c n Q

variable {x : Thread H ι} {n u : Nest ι κ} {p q : ι} {α β : Type} {l : Lock ι κ} {table : List ι}

omit [DecidableEq κ] in
theorem does_act {f : Traced H ι κ → Option (Traced H ι κ)} {c : Traced H ι κ → Code H ι κ α} {Q : α → Nest ι κ → Prop}
    (h : ∀ w N w', Inv w N → w.thread = x → N x = n → f w = some w' →
      ∃ n', Inv w' (Function.update N x n') ∧ Does x (c w) n' Q) : Does x (.act () f c) n Q :=
  fun w N w' hI hN hx hf => ⟨trivial, h w N w' hI hx hN hf⟩

omit [DecidableEq κ] in
theorem does_change {f : Traced H ι κ → Traced H ι κ}
    (h : ∀ w N, Inv w N → w.thread = x → N x = n → Inv (f w) (Function.update N x u)) :
    Does x (.change () f) n fun _ n' => n' = u := by
  apply does_act
  intro w N w' hI hx hN hf
  cases hf
  exact ⟨u, h w N hI hx hN, rfl⟩

omit [DecidableEq κ] in
theorem does_look {c : Traced H ι κ → Code H ι κ α} {Q : α → Nest ι κ → Prop}
    (h : ∀ w N, Inv w N → w.thread = x → N x = n → Does x (c w) n Q) : Does x (.look () >>= c) n Q := by
  apply does_act
  intro w N w' hI hx hN hf
  cases hf
  refine ⟨n, ?_, h w N hI hx hN⟩
  rw [← hN, Function.update_eq_self]
  exact hI

omit [DecidableEq κ] in
/-- Sequencing after a program that returns with a known token. -/
theorem does_seq {a : Code H ι κ α} {b : α → Code H ι κ β} {Q : β → Nest ι κ → Prop}
    (ha : Does x a n fun _ n' => n' = u) (hb : ∀ r, Does x (b r) u Q) : Does x (a >>= b) n Q := by
  apply ha.bind
  intro r n' hn
  subst hn
  exact hb r

/-! ### Interrupts and spin locks -/

omit [DecidableEq κ] in
theorem does_pushOff (hbusy : n.Busy x) : Does x (pushOff : Code H ι κ Unit) n fun _ n' => n' = { n with bare := n.bare + 1 } := by
  apply does_look
  intro w _ _ _ _
  apply does_change
  intro w' N hI hx hN
  rw [← hN] at hbusy ⊢
  exact hI.push hx hbusy w.cpu.sie

omit [DecidableEq κ] in
/-- Its checks do not fail. -/
theorem does_popOff (hbusy : n.Busy x) (hbare : 0 < n.bare) :
    Does x (popOff : Code H ι κ Unit) n fun _ n' => n' = { n with bare := n.bare - 1 } := by
  apply does_act
  intro w N w' hI hx hN hf
  have hcount := hI.count hx
  have hpos : 1 ≤ w.cpu.noff := by
    rw [hcount, hN]
    unfold Nest.depth
    omega
  have hoff : w.cpu.sie = false := hI.sie w.hart hpos
  have hno : ¬ w.cpu.noff < 1 := Nat.not_lt.mpr hpos
  simp only [hoff, hpos, hno, and_self, if_true, if_false, Bool.false_eq_true] at hf ⊢
  cases hf
  refine ⟨_, ?_, rfl⟩
  rw [← hN] at hbusy hbare ⊢
  exact hI.pop hx hbusy hbare

omit [DecidableEq κ] in
theorem Inv.holding_iff {w : Traced H ι κ} {N : Thread H ι → Nest ι κ} (hI : Inv w N) (hx : w.thread = x) (hN : N x = n) :
    w.holding l ↔ l ∈ n.held := by
  rw [← hN, ← hx]
  exact hI.handOver.locks l w.hart

theorem does_acquire (hbusy : n.Busy x) (hl : l ∉ n.held) :
    Does x (acquire l : Code H ι κ Unit) n fun _ n' => n' = { n with held := l :: n.held } := by
  have hbusy' : ({ n with bare := n.bare + 1 } : Nest ι κ).Busy x := hbusy
  apply does_seq (does_pushOff hbusy)
  intro _
  apply does_look
  intro w N hI hx hN
  rw [if_neg (mt (hI.holding_iff hx hN).mp hl)]
  apply does_act
  intro w' N' w'' hI' hx' hN' hf
  by_cases hfree : w'.locks l = none
  · rw [if_pos hfree] at hf
    cases hf
    have htake := hI'.take hx' (by rw [hN']; exact hbusy') hfree (by rw [hN']; exact Nat.succ_pos _)
    rw [hN'] at htake
    exact ⟨_, htake, rfl⟩
  · rw [if_neg hfree] at hf
    cases hf

theorem does_release (hbusy : n.Busy x) (hl : l ∈ n.held) (hkeep : ∀ p d, x = .proc p → n.mode = .leaving d → l ≠ .proc p) :
    Does x (release l : Code H ι κ Unit) n fun _ n' => n' = { n with held := n.held.erase l } := by
  have hdrop : Does x (modify fun m => m.setLock l none : Code H ι κ Unit) n
      fun _ n' => n' = { n with held := n.held.erase l, bare := n.bare + 1 } := by
    apply does_change
    intro w N hI hx hN
    rw [← hN] at hbusy hl hkeep ⊢
    exact hI.drop hx hbusy hl hkeep
  have hbusy' : ({ n with held := n.held.erase l, bare := n.bare + 1 } : Nest ι κ).Busy x := by
    rcases hbusy with h | h | ⟨p, d, hp, h, hmem⟩
    · exact .inl h
    · exact .inr (.inl h)
    · exact .inr (.inr ⟨p, d, hp, h, (List.mem_erase_of_ne (hkeep p d hp h).symm).mpr hmem⟩)
  apply does_look
  intro w N hI hx hN
  rw [if_pos ((hI.holding_iff hx hN).mpr hl)]
  apply does_seq hdrop
  exact fun _ => does_popOff hbusy' (Nat.succ_pos _)

omit [DecidableEq κ] in
theorem does_intr (hbusy : n.Busy x) (hzero : n.depth = 0) (on : Bool) :
    Does x (modify fun m => m.intr on : Code H ι κ Unit) n fun _ n' => n' = n := by
  apply does_change
  intro w N hI hx hN
  rw [← hN] at hbusy hzero ⊢
  rw [Function.update_eq_self]
  exact hI.intr hx hbusy hzero on

/-! ### Switching -/

omit [DecidableEq κ] in
/-- What the context of a process that is switched to is. -/
theorem Inv.arrived_fresh {w : Traced H ι κ} {N : Thread H ι → Nest ι κ} {d : Bool} (hI : Inv w N) (hx : w.thread = .proc p)
    (hmode : (N (.proc p)).mode = if d = true then .gone else .down) : w.fresh p = d := by
  have harrived : (tokens N (.proc p)).mode = .down ∨ (tokens N (.proc p)).mode = .gone := by
    have hmode : (tokens N (.proc p)).mode = if d = true then .gone else .down := hmode
    rw [hmode]
    cases d <;> simp
  obtain ⟨-, hstate⟩ := hI.handOver.arrived hx harrived
  cases hI.handOver.proc p with
  | run mode => cases d <;> cases hmode.symm.trans mode
  | leaving _ mode => cases d <;> cases hmode.symm.trans mode
  | down mode _ _ saved =>
    cases d with
    | true => cases hmode.symm.trans mode
    | false => exact saved
  | gone mode _ _ stage =>
    cases d with
    | false => cases hmode.symm.trans mode
    | true =>
      rcases stage with ⟨hfresh, -⟩ | hun | hzo
      · exact hfresh
      · cases hun.symm.trans hstate
      · cases hzo.symm.trans hstate

omit [DecidableEq κ] in
/-- Its checks do not fail. -/
theorem does_sched {d s : Bool} :
    Does (.proc p : Thread H ι) (lift (Harts.sched p) : Code H ι κ Bool) ⟨.leaving d, [.proc p], 0, s⟩
      fun fresh n => fresh = d ∧ n = ⟨.run, [.proc p], 0, s⟩ := by
  apply does_act
  intro w N w' hI hx hN hf
  have hmode : (N (.proc p)).mode = .leaving d := by rw [hN]
  have hhold : w.holding (.proc p) := (hI.holding_iff hx hN).mpr (List.mem_singleton_self _)
  have hnoff : w.cpu.noff = 1 := by
    rw [hI.count hx, hN]
    rfl
  have hoff : w.cpu.sie = false := hI.sie w.hart (by rw [show (w.cpus w.hart).noff = 1 from hnoff]; exact Nat.one_pos)
  have hstate : (w.procs p).state ≠ .running := by
    cases hI.handOver.proc p with
    | run mode => cases hmode.symm.trans mode
    | leaving _ _ _ _ _ state => exact state
    | down mode => cases hmode.symm.trans mode
    | gone mode => cases hmode.symm.trans mode
  simp only [hhold, hnoff, hoff, hstate, ne_eq, not_false_eq_true, not_true_eq_false, and_self, if_true, if_false,
    Bool.false_eq_true, Option.map_some] at hf ⊢
  cases hf
  have hleave := hI.leave hx hmode (by rw [hN]) (by rw [hN])
  rw [hN] at hleave
  refine ⟨_, hleave, ?_⟩
  apply does_act
  intro w₁ N₁ w₂ hI₁ hx₁ hN₁ hf₁
  have hfresh : w₁.fresh p = d := hI₁.arrived_fresh hx₁ (by rw [hN₁])
  refine ⟨⟨.run, [.proc p], 0, s⟩, ?_, hfresh, rfl⟩
  cases d with
  | true =>
    simp only [hfresh, if_true, Option.map_some] at hf₁
    cases hf₁
    exact hI₁.first_run hx₁ hN₁ hfresh s
  | false =>
    simp only [hfresh, Bool.false_eq_true, if_false, Option.map_some] at hf₁
    cases hf₁
    have harrive := hI₁.arrive (c := { w₁.cpu with intena := w.cpu.intena }) hx₁ s (.inl (by simp [hN₁])) ⟨rfl, rfl, rfl⟩
    rw [hN₁] at harrive
    exact harrive

omit [DecidableEq κ] in
/-- What follows `sched` when it returns to the process that called it. -/
theorem does_resumed {a : Code H ι κ α} {Q : α → Nest ι κ → Prop} (ha : Does x a n Q) {fresh : Bool} (hfresh : fresh = false) :
    Does x (resumed a fresh) n Q := by
  subst hfresh
  exact ha

omit [DecidableEq H] [DecidableEq ι] [DecidableEq κ] in
theorem Nest.busy_run {held : List (Lock ι κ)} {bare : Nat} {s : Bool} : (⟨.run, held, bare, s⟩ : Nest ι κ).Busy x := .inr (.inl rfl)

theorem does_forkret {s : Bool} :
    Does (.proc p : Thread H ι) (forkret p : Code H ι κ Unit) ⟨.run, [.proc p], 0, s⟩ fun _ n => n = ⟨.run, [], 0, s⟩ := by
  have hrelease : Does (.proc p : Thread H ι) (release (.proc p) : Code H ι κ Unit) ⟨.run, [.proc p], 0, s⟩
      fun _ n => n = ⟨.run, [Lock.proc p].erase (.proc p), 0, s⟩ :=
    does_release Nest.busy_run (List.mem_singleton_self _) fun _ _ _ h => nomatch h
  rw [List.erase_cons_head] at hrelease
  exact hrelease

omit [DecidableEq κ] in
theorem does_pause {held : List (Lock ι κ)} {bare : Nat} {s : Bool} (hp : .proc p ∈ held) {state : ProcState} (hrunning : state ≠ .running)
    (hunused : state ≠ .unused) :
    Does (.proc p : Thread H ι) (modify fun m => m.setProc p fun x => { x with state := state } : Code H ι κ Unit)
      ⟨.run, held, bare, s⟩ fun _ n => n = ⟨.leaving (state = .zombie), held, bare, s⟩ := by
  apply does_change
  intro w N hI hx hN
  have hpause := hI.pause hx (by rw [hN]) (by rw [hN]; exact hp) hrunning hunused
  rw [hN] at hpause
  exact hpause

theorem does_yield {s : Bool} :
    Does (.proc p : Thread H ι) (yield p : Code H ι κ Unit) ⟨.run, [], 0, s⟩ fun _ n => n = ⟨.run, [], 0, s⟩ := by
  apply does_seq (does_acquire Nest.busy_run List.not_mem_nil)
  intro _
  apply does_seq (does_pause (List.mem_singleton_self _) (by decide) (by decide))
  intro _
  apply does_sched.bind
  rintro fresh n ⟨hfresh, rfl⟩
  exact does_resumed does_forkret hfresh

/-! ### The scheduler -/

theorem does_release_loop {h : H} {s : Bool} :
    Does (.sched h : Thread H ι) (release (.proc q) : Code H ι κ Unit) ⟨.loop, [.proc q], 0, s⟩ fun _ n => n = ⟨.loop, [], 0, s⟩ := by
  have hrelease : Does (.sched h : Thread H ι) (release (.proc q) : Code H ι κ Unit) ⟨.loop, [.proc q], 0, s⟩
      fun _ n => n = ⟨.loop, [Lock.proc q].erase (.proc q), 0, s⟩ :=
    does_release (.inl rfl) (List.mem_singleton_self _) fun _ _ h => nomatch h
  rw [List.erase_cons_head] at hrelease
  exact hrelease

theorem does_schedule {h : H} {s : Bool} (table : List ι) :
    Does (.sched h : Thread H ι) (schedule table : Code H ι κ Unit) ⟨.loop, [], 0, s⟩ fun _ n => n = ⟨.loop, [], 0, s⟩ := by
  induction table with
  | nil => rfl
  | cons q rest ih =>
    apply does_seq (does_acquire (.inl rfl) List.not_mem_nil)
    intro _
    have hnext : Does (.sched h : Thread H ι) (do release (.proc q); schedule rest : Code H ι κ Unit) ⟨.loop, [.proc q], 0, s⟩
        fun _ n => n = ⟨.loop, [], 0, s⟩ := does_seq does_release_loop fun _ => ih
    apply does_act
    intro w N w' hI hx hN hf
    cases hf
    by_cases hstate : (w.procs q).state = .runnable
    · simp only [hstate, if_true]
      have hchoose := hI.choose hx (by rw [hN]) hstate
      rw [hN] at hchoose
      refine ⟨_, hchoose, ?_⟩
      have hgo : Does (.sched h : Thread H ι) (modify fun m => m.setExec (.proc q) : Code H ι κ Unit) ⟨.chosen q, [.proc q], 0, s⟩
          fun _ n => n = ⟨.away q, [.proc q], 0, s⟩ := by
        apply does_change
        intro w N hI hx hN
        have hgo := hI.go hx (q := q) (by rw [hN]) (by rw [hN])
        rw [hN] at hgo
        exact hgo
      have hback : Does (.sched h : Thread H ι) (modify fun m => m.setCpu fun c => { c with proc := none } : Code H ι κ Unit)
          ⟨.away q, [.proc q], 0, s⟩ fun _ n => n = ⟨.loop, [.proc q], 0, s⟩ := by
        apply does_change
        intro w N hI hx hN
        have hback := hI.back hx (q := q) (by rw [hN])
        rw [hN] at hback
        exact hback
      apply does_seq hgo
      intro _
      apply does_seq hback
      exact fun _ => hnext
    · simp only [hstate, if_false]
      refine ⟨⟨.loop, [.proc q], 0, s⟩, ?_, hnext⟩
      rw [← hN, Function.update_eq_self]
      exact hI

theorem does_scheduler {h : H} {s : Bool} :
    Does (.sched h : Thread H ι) (scheduler table : Code H ι κ Unit) ⟨.loop, [], 0, s⟩ fun _ n => n = ⟨.loop, [], 0, s⟩ := by
  apply does_seq (does_intr (.inl rfl) rfl true)
  exact fun _ => does_schedule table

/-! ### What threads do -/

/-- Where a thread stands that may look after processes. -/
def Nest.Free (n : Nest ι κ) : Prop := n.mode = .loop ∨ n.mode = .run

omit [DecidableEq H] [DecidableEq ι] [DecidableEq κ] in
theorem Nest.Free.busy (h : n.Free) : n.Busy x := h.imp_right .inl

theorem does_op {o : Op ι κ} (hbusy : n.Busy x) (hallowed : o.allowed ⟨n.held, n.bare⟩) (hfree : n.Free ∨ ∃ p, x = .proc p ∧ o.keeps p) :
    Does x (o.run : Code H ι κ Unit) n
      fun _ n' => n' = ⟨n.mode, (o.next ⟨n.held, n.bare⟩).held, (o.next ⟨n.held, n.bare⟩).bare, n.saved⟩ := by
  cases o with
  | pushOff => exact does_pushOff hbusy
  | popOff => exact does_popOff hbusy hallowed
  | acquire l => exact does_acquire hbusy hallowed
  | release l =>
    refine does_release hbusy hallowed ?_
    rintro p d rfl hmode
    rcases hfree with hfree | ⟨r, hr, hkeeps⟩
    · rcases hfree with h | h <;> cases hmode.symm.trans h
    · cases hr
      exact hkeeps
  | care q c =>
    rcases hfree with hfree | ⟨r, hr, hkeeps⟩
    · apply does_change
      intro w N hI hx hN
      have hself : Function.update N x n = N := by rw [← hN, Function.update_eq_self]
      show Inv (c.change q w) (Function.update N x n)
      rw [hself]
      rw [← hN] at hfree hallowed
      exact hI.care hx hfree hallowed c
    · exact hkeeps.elim

theorem does_ops {ops : List (Op ι κ)} (hfree : n.Free) (hnested : Op.nested ⟨n.held, n.bare⟩ ops) :
    Does x (Op.runs ops : Code H ι κ Unit) n fun _ n' => n' = ⟨n.mode, [], 0, n.saved⟩ := by
  induction ops generalizing n with
  | nil =>
    cases n with
    | mk mode held bare saved =>
      cases hnested
      rfl
  | cons o ops ih =>
    obtain ⟨hallowed, hrest⟩ := hnested
    apply does_seq (does_op hfree.busy hallowed (.inl hfree))
    exact fun _ => ih hfree hrest

omit [DecidableEq κ] in
/-- Where a thread is that can be interrupted. -/
theorem Inv.interruptible {w : Traced H ι κ} {N : Thread H ι → Nest ι κ} (hI : Inv w N) (hx : w.thread = x) (hsie : w.cpu.sie = true) :
    ∃ mode s, N x = ⟨mode, [], 0, s⟩ ∧ (mode = .loop ∨ mode = .run) := by
  have hcount := hI.count hx
  have hzero : (N x).depth = 0 := by
    by_contra hne
    have hoff : w.cpu.sie = false := hI.sie w.hart (by
      rw [show (w.cpus w.hart).noff = (N x).depth from hcount]
      exact Nat.pos_of_ne_zero hne)
    rw [hoff] at hsie
    cases hsie
  unfold Nest.depth at hzero
  have hheld : (N x).held = [] := List.length_eq_zero_iff.mp (by omega)
  have hbare : (N x).bare = 0 := by omega
  refine ⟨(N x).mode, (N x).saved, ?_, ?_⟩
  · rw [← hheld, ← hbare]
  · cases x with
    | sched h =>
      cases hI.handOver.sched h with
      | loop mode => exact .inl mode
      | chosen q _ _ held => cases held.symm.trans hheld
      | away q _ held => cases held.symm.trans hheld
    | proc p =>
      cases hI.handOver.proc p with
      | run mode => exact .inr mode
      | leaving d _ _ _ held =>
        have held : Lock.proc p ∈ (N (.proc p)).held := held
        rw [hheld] at held
        cases held
      | down _ held => cases held.symm.trans hheld
      | gone _ held => cases held.symm.trans hheld

omit [DecidableEq κ] in
/-- The current process of the hart of a thread that can be interrupted is this thread. -/
theorem Inv.current_runs {w : Traced H ι κ} {N : Thread H ι → Nest ι κ} {mode : Mode ι} {s : Bool} (hI : Inv w N) (hx : w.thread = x)
    (hN : N x = ⟨mode, [], 0, s⟩) (hmode : mode = .loop ∨ mode = .run) (hproc : w.cpu.proc = some q) : x = .proc q ∧ mode = .run := by
  have hexec : w.exec w.hart = x := hx
  have hheld : (N x).held = [] := by rw [hN]
  cases x with
  | sched h =>
    have hh : h = w.hart := hI.handOver.exec_sched hexec
    subst hh
    cases hI.handOver.sched w.hart with
    | loop _ _ cpu => cases cpu.symm.trans hproc
    | chosen _ _ _ held => cases held.symm.trans hheld
    | away _ _ held => cases held.symm.trans hheld
  | proc p =>
    have hp : w.cpu.proc = some p := hI.handOver.cpu_proc hexec
    have hpq : p = q := Option.some.inj (hp.symm.trans hproc)
    subst hpq
    refine ⟨rfl, hmode.resolve_left ?_⟩
    rintro rfl
    have hloop : (N (.proc p)).mode = .loop := by rw [hN]
    cases hI.handOver.proc p with
    | run mode => cases hloop.symm.trans mode
    | leaving _ mode => cases hloop.symm.trans mode
    | down mode => cases hloop.symm.trans mode
    | gone mode => cases hloop.symm.trans mode

theorem does_preempt {timer s : Bool} {mode : Mode ι} (hmode : mode = .loop ∨ mode = .run) :
    Does x (preempt timer : Code H ι κ Unit) ⟨mode, [], 0, s⟩ fun _ n => n = ⟨mode, [], 0, s⟩ := by
  apply does_act
  intro w N w' hI hx hN hf
  cases hf
  have hself : Function.update N x ⟨mode, [], 0, s⟩ = N := by rw [← hN, Function.update_eq_self]
  refine ⟨⟨mode, [], 0, s⟩, hself.symm ▸ hI, ?_⟩
  cases hproc : w.cpu.proc with
  | none => rfl
  | some q =>
    by_cases hdue : timer = true ∧ (w.procs q).state = .running
    · -- the hart executes its current process
      obtain ⟨rfl, rfl⟩ := hI.current_runs hx hN hmode hproc
      simp only [hdue, and_self, if_true]
      exact does_yield
    · simp only [hdue, if_false]
      rfl

theorem does_kerneltrap {s : Bool} {mode : Mode ι} (hmode : mode = .loop ∨ mode = .run) (irq : Irq ι κ) :
    Does x (kerneltrap irq : Code H ι κ Unit) ⟨mode, [], 0, s⟩ fun _ n => n = ⟨mode, [], 0, s⟩ := by
  have hfree : (⟨mode, [], 0, s⟩ : Nest ι κ).Free := hmode
  apply does_seq (does_intr hfree.busy rfl false)
  intro _
  apply does_seq (does_ops hfree irq.nested)
  intro _
  apply does_seq (does_preempt hmode)
  exact fun _ => does_intr hfree.busy rfl true

/-- The token of an idle thread. -/
def idleToken : Thread H ι → Local ι κ → Nest ι κ → Prop
  | .sched _, l, n => l.leaving = none ∧ ∃ s, n = ⟨.loop, l.held, l.bare, s⟩
  | .proc p, l, n => ∃ s, l.leaving = none ∧ n = ⟨.run, l.held, l.bare, s⟩ ∨
      ∃ d, l.leaving = some d ∧ .proc p ∈ l.held ∧ n = ⟨.leaving d, l.held, l.bare, s⟩

/-- An idle process does what it does with its locks. -/
theorem does_body_op {l : Local ι κ} {o : Op ι κ} {mode : Mode ι} {s : Bool} {Q : Local ι κ → Nest ι κ → Prop}
    (hbusy : (⟨mode, l.held, l.bare, s⟩ : Nest ι κ).Busy x) (hallowed : o.allowed l.toOpen)
    (hfree : (mode = .loop ∨ mode = .run) ∨ ∃ p, x = .proc p ∧ o.keeps p)
    (hQ : Q { l with toOpen := o.next l.toOpen } ⟨mode, (o.next l.toOpen).held, (o.next l.toOpen).bare, s⟩) :
    Does x (Call.body table x l (.op o) : Code H ι κ (Local ι κ)) ⟨mode, l.held, l.bare, s⟩ Q := by
  apply does_seq (does_op hbusy hallowed hfree)
  exact fun _ => hQ

omit [DecidableEq H] in
/-- A process that leaves keeps its own lock. -/
theorem Op.keeps_held {o : Op ι κ} {m : Open ι κ} (hkeeps : o.keeps p) (hp : .proc p ∈ m.held) : .proc p ∈ (o.next m).held := by
  cases o with
  | pushOff => exact hp
  | popOff => exact hp
  | acquire l => exact List.mem_cons_of_mem _ hp
  | release l => exact (List.mem_erase_of_ne (Ne.symm hkeeps)).mpr hp
  | care q c => exact hp

theorem does_call {l : Local ι κ} {c : Call ι κ} (hc : Call.enabled x l c) (ht : idleToken x l n) :
    Does x (Call.body table x l c : Code H ι κ (Local ι κ)) n (idleToken x) := by
  cases x with
  | sched h =>
    obtain ⟨hstay, s, rfl⟩ := ht
    cases c with
    | op o => exact does_body_op (.inl rfl) hc (.inl (.inl rfl)) ⟨hstay, s, rfl⟩
    | intr on =>
      have hidle : l.toOpen = ⟨[], 0⟩ := hc
      have hzero : (⟨.loop, l.held, l.bare, s⟩ : Nest ι κ).depth = 0 := by simp [Nest.depth, hidle]
      apply does_seq (does_intr (.inl rfl) hzero on)
      exact fun _ => ⟨hstay, s, rfl⟩
    | leave state => cases hc
    | sched => cases hc
    | scheduler =>
      have hidle : l = .idle := hc
      subst hidle
      apply does_seq does_scheduler
      exact fun _ => ⟨rfl, s, rfl⟩
  | proc p =>
    obtain ⟨s, ⟨hstay, rfl⟩ | ⟨d, hleaving, hp, rfl⟩⟩ := ht
    · cases c with
      | op o => exact does_body_op (.inr (.inl rfl)) hc.1 (.inl (.inr rfl)) ⟨s, .inl ⟨hstay, rfl⟩⟩
      | intr on =>
        have hidle : l.toOpen = ⟨[], 0⟩ := hc
        have hzero : (⟨.run, l.held, l.bare, s⟩ : Nest ι κ).depth = 0 := by simp [Nest.depth, hidle]
        apply does_seq (does_intr Nest.busy_run hzero on)
        exact fun _ => ⟨s, .inl ⟨hstay, rfl⟩⟩
      | leave state =>
        obtain ⟨-, hp, hrunning, hunused⟩ := hc
        apply does_seq (does_pause hp hrunning hunused)
        exact fun _ => ⟨s, .inr ⟨_, rfl, hp, rfl⟩⟩
      | sched => exact absurd hstay hc.2
      | scheduler => cases hc
    · cases c with
      | op o =>
        obtain ⟨hallowed, hkeeps⟩ := hc
        have hkeeps : o.keeps p := hkeeps.resolve_left (by simp [hleaving])
        exact does_body_op (.inr (.inr ⟨p, d, rfl, rfl, hp⟩)) hallowed (.inr ⟨p, rfl, hkeeps⟩)
          ⟨s, .inr ⟨d, hleaving, Op.keeps_held hkeeps hp, rfl⟩⟩
      | intr on =>
        have hidle : l.toOpen = ⟨[], 0⟩ := hc
        simp [hidle] at hp
      | leave state => exact absurd hc.1 (by simp [hleaving])
      | sched =>
        obtain ⟨hopen, -⟩ := hc
        obtain ⟨⟨held, bare⟩, leaving⟩ := l
        cases hopen
        cases hleaving
        apply does_sched.bind
        rintro fresh n ⟨rfl, rfl⟩
        cases fresh with
        | true =>
          simp only [if_true]
          apply does_seq does_forkret
          exact fun _ => ⟨s, .inl ⟨rfl, rfl⟩⟩
        | false => exact ⟨s, .inl ⟨rfl, rfl⟩⟩
      | scheduler => cases hc

theorem keeps : HartKeeps (client table) (Inv : Traced H ι κ → _ → Prop) (fun _ => False) idleToken where
  call _ _ _ _ hc ht := does_call hc ht
  turn h w N hI := by
    have hH : HandOver (plain { w.toMachine with hart := h } (tokens N)) (tokens N) :=
      handOver_plain hI.handOver rfl rfl rfl rfl fun _ => rfl
    exact ⟨hH, hI.noff, hI.sie, hI.unmatched, hI.depth, hI.bare, hI.intena, hI.saved, hI.first, hI.restored⟩
  trap w N x irq hI hx hsie := by
    obtain ⟨mode, s, hN, hmode⟩ := hI.interruptible hx hsie
    rw [hN]
    exact does_kerneltrap hmode irq

/-! ### From boot -/

/-- The tokens at boot. -/
def bootToken : Thread H ι → Nest ι κ
  | .sched _ => ⟨.loop, [], 0, false⟩
  | .proc p => ⟨.gone, [.proc p], 0, false⟩

theorem boot_inv (init : ι) (h : H) : Inv (booted init h : Config Unit Stop (Traced H ι κ) _ _).shared bootToken := by
  constructor
  · have hboot : HandOver (Harts.booted init h : Config Unit Stop (Machine H ι κ) _ _).shared Harts.bootToken := (Harts.boot_inv h).handOver
    have htokens : tokens (bootToken : Thread H ι → Nest ι κ) = Harts.bootToken := by
      funext x
      cases x <;> rfl
    rw [htokens]
    exact handOver_plain hboot rfl rfl rfl rfl fun _ => rfl
  · exact fun _ => rfl
  · exact fun _ _ => rfl
  · exact fun _ => rfl
  · intro x
    cases x <;> rfl
  · intro x _
    cases x <;> rfl
  · exact fun _ _ _ he => nomatch he
  · exact fun _ _ h => nomatch h
  · exact fun _ _ _ => rfl
  · trivial

theorem boot_born : Does (.proc p : Thread H ι) (do born p; return .idle : Code H ι κ (Local ι κ)) (bootToken (.proc p : Thread H ι))
    (idleToken (.proc p : Thread H ι)) := by
  apply does_act
  intro w N w' hI hx hN hf
  cases hf
  have hfresh : w.fresh p = true := hI.arrived_fresh (d := true) hx (by rw [hN]; rfl)
  refine ⟨_, hI.first_run hx hN hfresh false, ?_⟩
  simp only [hfresh, if_true]
  apply does_seq does_forkret
  exact fun _ => ⟨false, .inl ⟨rfl, rfl⟩⟩

theorem covered {init : ι} {h₀ : H} {g : Config Unit Stop (Traced H ι κ) (Thread H ι) (Local ι κ)}
    (hg : HartReach (client table) (booted init h₀) g) : HartCovered (client table) Inv (fun _ => False) idleToken g := by
  refine HartReach.sound keeps ⟨bootToken, boot_inv init h₀, fun x => ?_⟩ hg
  cases x with
  | sched h => exact ⟨rfl, false, rfl⟩
  | proc p => exact boot_born

/-- In every run of the harts, with each thread undoing only what it has done:
(a) the counter of a hart is the number of calls of `push_off` on it that are not undone, and of those in force for
the thread that it executes;
(b) interrupts are off where it is not 0;
(c) no check fails, in `pop_off` or elsewhere;
(d) where a process has undone its outermost `push_off`, interrupts are on if and only if it had found them on. -/
theorem nesting {init : ι} {h₀ : H} {g : Config Unit Stop (Traced H ι κ) (Thread H ι) (Local ι κ)}
    (hg : HartReach (client table) (booted init h₀) g) :
    (∀ h, (g.shared.cpus h).noff = openOn h g.shared.log ∧ (g.shared.cpus h).noff = openBy (g.shared.exec h) g.shared.log) ∧
    (∀ h, 0 < (g.shared.cpus h).noff → (g.shared.cpus h).sie = false) ∧
    (∀ x e, g.thread x ≠ .stop e) ∧ Restored g.shared.log := by
  obtain ⟨N, hI, hT⟩ := covered hg
  refine ⟨fun h => ⟨(hI.unmatched h).symm, ?_⟩, hI.sie, fun x e he => HartCovered.stop hT he, hI.restored⟩
  rw [hI.depth]
  exact hI.noff h

/-- The process takes its lock on hart 0, with interrupts on, switches, and releases it on hart 1. -/
def migrated : List (HartMove (Fin 2) (Thread (Fin 2) Unit) (Call Unit Unit)) :=
  [.begin 0 (.sched 0) .scheduler, .acts 0 (.sched 0) 7, .acts 0 (.proc ()) 4, .begin 0 (.proc ()) (.intr true), .acts 0 (.proc ()) 1,
    .begin 0 (.proc ()) (.op (.acquire (.proc ()))), .acts 0 (.proc ()) 4, .begin 0 (.proc ()) (.leave .runnable), .acts 0 (.proc ()) 1,
    .begin 0 (.proc ()) .sched, .acts 0 (.proc ()) 1, .acts 0 (.sched 0) 4,
    .begin 1 (.sched 1) .scheduler, .acts 1 (.sched 1) 7, .acts 1 (.proc ()) 1,
    .begin 1 (.proc ()) (.op (.release (.proc ()))), .acts 1 (.proc ()) 3]

theorem nesting_migrated : ∃ g : Config Unit Stop (Traced (Fin 2) Unit Unit) (Thread (Fin 2) Unit) (Local Unit Unit),
    HartReach (client [()]) (booted () 0) g ∧ g.shared.log.head? = some (.pop 1 (.proc ()) true) ∧
      foundBy (.proc ()) g.shared.log = some true ∧ openOn 1 g.shared.log = 0 ∧ (g.shared.cpus 1).noff = openOn 1 g.shared.log ∧
      Restored g.shared.log := by
  have hplay : ∃ g : Config Unit Stop (Traced (Fin 2) Unit Unit) (Thread (Fin 2) Unit) (Local Unit Unit),
      HartReach (client [()]) (booted () 0) g ∧ g.shared.log.head? = some (.pop 1 (.proc ()) true) ∧
        foundBy (.proc ()) g.shared.log = some true ∧ openOn 1 g.shared.log = 0 := HartReach.of_play migrated (by decide +kernel)
  obtain ⟨g, hg, hlog, hfound, hopen⟩ := hplay
  obtain ⟨hcounts, -, -, hrestored⟩ := nesting hg
  exact ⟨g, hg, hlog, hfound, hopen, (hcounts 1).1, hrestored⟩

end Farron.Intr
