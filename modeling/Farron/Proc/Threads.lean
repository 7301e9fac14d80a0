import Farron.Proc.Lives

/-! What locking, switching, sleeping and waking up do to the token of a thread.

One triple for each function of `kernel/proc.c` that other code calls. A thread stops only for
the reasons in `Allowed`: none of them is a check of `sched`. -/
namespace Farron.Harts
open Resumption
variable {H ι κ : Type} [DecidableEq H] [DecidableEq ι] [DecidableEq κ]

/-- Why a thread may stop: it takes a lock that its hart holds or releases one that it does not,
`init` exits, or a loop has gone on for too long. -/
def Allowed (e : Stop) : Prop :=
  e = .panic "acquire" ∨ e = .panic "release" ∨ e = .panic "init exiting" ∨ e = .spin

/-- The triple of a thread, under the invariant. -/
abbrev Does (init : ι) (x : Thread H ι) {α : Type} (p : Code H ι κ α) (t : Token ι κ) (Q : α → Token ι κ → Prop) : Prop :=
  Triple (Inv init) (fun _ m => m.exec m.hart = x) (fun _ _ => True) Allowed x p t Q

variable {init p : ι} {x : Thread H ι} {mode : Mode ι} {held : List (Lock ι κ)} {k : Task ι} {rs : List (Int × Int)}
variable {α β : Type} {t u : Token ι κ}

omit [DecidableEq κ] in
theorem does_act {f : Machine H ι κ → Option (Machine H ι κ)} {c : Machine H ι κ → Code H ι κ α} {Q : α → Token ι κ → Prop}
    (h : ∀ m T m', Inv init m T → m.exec m.hart = x → T x = t → f m = some m' →
      ∃ t', Inv init m' (Function.update T x t') ∧ Does init x (c m) t' Q) :
    Does init x (.act () f c) t Q :=
  fun m T m' hI hT hx hf => ⟨trivial, h m T m' hI hx hT hf⟩

omit [DecidableEq κ] in
theorem does_modify {f : Machine H ι κ → Machine H ι κ}
    (h : ∀ m T, Inv init m T → m.exec m.hart = x → T x = t → Inv init (f m) (Function.update T x u)) :
    Does init x (modify f) t fun _ t' => t' = u := by
  apply does_act
  intro m T m' hI hx hT hf
  cases hf
  exact ⟨u, h m T hI hx hT, rfl⟩

omit [DecidableEq κ] in
/-- Sequencing after a program that returns with a known token. -/
theorem does_seq {a : Code H ι κ α} {b : α → Code H ι κ β} {Q : β → Token ι κ → Prop}
    (ha : Does init x a t fun _ t' => t' = u) (hb : ∀ r, Does init x (b r) u Q) : Does init x (a >>= b) t Q := by
  apply ha.bind
  intro r t' ht
  subst ht
  exact hb r

omit [DecidableEq κ] in
theorem does_map {a : Code H ι κ α} {b : α → β} (ha : Does init x a t fun _ t' => t' = u) :
    Does init x (do let r ← a; return b r) t fun _ t' => t' = u :=
  does_seq ha fun _ => rfl

/-! ### Spin locks -/

/-- A thread takes a lock, and may take up a task that needs it. -/
theorem does_acquire_for {l : Lock ι κ} (hstage : mode = .loop ∨ mode = .run) {k' : Task ι}
    (hk : ∀ m T, Inv init m T → T x = ⟨mode, l :: held, k, rs⟩ → Inv init m (Function.update T x ⟨mode, l :: held, k', rs⟩)) :
    Does init x (acquire l) ⟨mode, held, k, rs⟩ fun _ t => t = ⟨mode, l :: held, k', rs⟩ := by
  apply does_act
  intro m T m' hI hx hT hf
  by_cases hfree : m.locks l = none
  · simp only [hfree, if_true] at hf
    cases hf
    have hnot : ¬ m.holding l := by simp [Machine.holding, hfree]
    simp only [hnot, if_false]
    have hheld := hk _ _ (hI.acquire hx hT hstage hfree) (Function.update_self ..)
    rw [Function.update_idem] at hheld
    exact ⟨_, hheld, rfl⟩
  · by_cases hhold : m.holding l
    · simp only [hfree, hhold, if_true, if_false] at hf ⊢
      cases hf
      refine ⟨T x, ?_, .inl rfl⟩
      rw [Function.update_eq_self]
      exact hI
    · simp [hfree, hhold] at hf

theorem does_acquire {l : Lock ι κ} (hstage : mode = .loop ∨ mode = .run) :
    Does init x (acquire l) ⟨mode, held, k, rs⟩ fun _ t => t = ⟨mode, l :: held, k, rs⟩ := by
  apply does_acquire_for hstage
  intro m T hI hT
  rw [← hT, Function.update_eq_self]
  exact hI

theorem does_release {l : Lock ι κ} {held' : List (Lock ι κ)} (hheld : held.erase l = held')
    (hstage : mode = .loop ∨ mode = .run ∨ ∃ p d, x = .proc p ∧ mode = .leaving d ∧ .proc p ∈ held')
    {k' : Task ι} (hk : k.Released x held l k') :
    Does init x (release l) ⟨mode, held, k, rs⟩ fun _ t => t = ⟨mode, held', k', rs⟩ := by
  subst hheld
  apply does_act
  intro m T m' hI hx hT hf
  cases hf
  by_cases hhold : m.holding l
  · have hl : l ∈ held := by
      have := (hI.handOver.locks l m.hart).mp hhold
      rw [hx, hT] at this
      exact this
    have hnoff := hI.handOver.noff m.hart
    rw [hx, hT] at hnoff
    have hpos : 0 < (m.cpus m.hart).noff := by
      rw [hnoff]
      exact List.length_pos_of_mem hl
    have hsie := hI.handOver.sie m.hart hpos
    have h1 : ¬ m.cpu.noff < 1 := Nat.not_lt.mpr hpos
    have h2 : m.cpu.sie = false := hsie
    simp only [hhold, not_true_eq_false, if_true, if_false, h1, h2, Bool.false_eq_true]
    exact ⟨_, hI.release hx hT hl hstage hk, rfl⟩
  · simp only [hhold, not_false_eq_true, if_true, if_false]
    refine ⟨T x, ?_, .inr (.inl rfl)⟩
    rw [Function.update_eq_self]
    exact hI

/-- The lock taken last is released, and the task does not need it. -/
theorem does_release_idle {l : Lock ι κ} (hstage : mode = .loop ∨ mode = .run) (hk : ∀ p, x = .proc p → k.lock p = none) :
    Does init x (release l) ⟨mode, l :: held, k, rs⟩ fun _ t => t = ⟨mode, held, k, rs⟩ := by
  apply does_release (List.erase_cons_head ..)
  · obtain h | h := hstage
    · exact .inl h
    · exact .inr (.inl h)
  · exact .inl ⟨rfl, fun p o hp ho => nomatch (hk p hp).symm.trans ho⟩

omit [DecidableEq κ] in
theorem does_intr (hstage : mode = .loop ∨ mode = .run) (on : Bool) :
    Does init x (modify fun m : Machine H ι κ => m.intr on) ⟨mode, [], k, rs⟩ fun _ t => t = ⟨mode, [], k, rs⟩ := by
  apply does_modify
  intro m T hI hx hT
  rw [← hT, Function.update_eq_self]
  exact hI.intr hx hT hstage on

/-! ### Switching -/

omit [DecidableEq H] [DecidableEq κ] in
/-- A process that is about to leave passes the checks of `sched`. -/
theorem Inv.may_sched {m : Machine H ι κ} {T : Thread H ι → Token ι κ} {d : Bool} (hI : Inv init m T)
    (hx : m.exec m.hart = .proc p) (hT : T (.proc p) = ⟨.leaving d, [.proc p], k, rs⟩) :
    m.holding (.proc p) ∧ m.cpu.noff = 1 ∧ (m.procs p).state ≠ .running ∧ m.cpu.sie = false := by
  have hhold : m.holding (.proc p) := by
    apply (hI.handOver.locks (.proc p) m.hart).mpr
    rw [hx, hT]
    exact List.mem_singleton_self _
  have hnoff : m.cpu.noff = 1 := by
    have := hI.handOver.noff m.hart
    rw [hx, hT] at this
    exact this
  refine ⟨hhold, hnoff, ?_, hI.handOver.sie m.hart (by rw [show (m.cpus m.hart).noff = 1 from hnoff]; exact Nat.one_pos)⟩
  cases hI.handOver.proc p with
  | run mode => rw [hT] at mode; cases mode
  | leaving _ _ _ _ _ state => exact state
  | down mode => rw [hT] at mode; cases mode
  | gone mode => rw [hT] at mode; cases mode

omit [DecidableEq H] [DecidableEq κ] in
/-- What the context of a process that is switched to is. -/
theorem Inv.arrived_fresh {m : Machine H ι κ} {T : Thread H ι → Token ι κ} {d : Bool} (hI : Inv init m T)
    (hx : m.exec m.hart = .proc p)
    (hT : T (.proc p) = ⟨if d = true then .gone else .down, [.proc p], k, rs⟩) : m.fresh p = d := by
  have hstate := (hI.handOver.arrived hx (by rw [hT]; cases d <;> simp)).2
  cases hI.handOver.proc p with
  | run mode => rw [hT] at mode; cases d <;> cases mode
  | leaving _ mode => rw [hT] at mode; cases d <;> cases mode
  | down mode _ _ saved => rw [hT] at mode; cases d <;> simp_all
  | gone mode _ _ stage => rw [hT] at mode; cases d <;> simp_all

omit [DecidableEq ι] [DecidableEq κ] in
theorem Machine.setCpu_id (m : Machine H ι κ) : (m.setCpu fun c => c) = m := by
  unfold Machine.setCpu Machine.cpu
  rw [Function.update_eq_self]

omit [DecidableEq κ] in
theorem does_sched {d : Bool} (hk : k.lock p = none) :
    Does init (.proc p : Thread H ι) (sched p : Code H ι κ Bool) ⟨.leaving d, [.proc p], k, rs⟩
      fun fresh t => fresh = d ∧ t = ⟨.run, [.proc p], k, rs⟩ := by
  apply does_act
  intro m T m' hI hx hT hf
  obtain ⟨hhold, hnoff, hstate, hsie⟩ := hI.may_sched hx hT
  simp only [hhold, hnoff, hstate, hsie, ne_eq, not_false_eq_true, not_true_eq_false, and_self, if_true, if_false,
    Bool.false_eq_true] at hf ⊢
  cases hf
  refine ⟨_, hI.leave hx hT hk, ?_⟩
  apply does_act
  intro m₁ T₁ m₂ hI₁ hx₁ hT₁ hf₁
  have hfresh := hI₁.arrived_fresh hx₁ hT₁
  have hmode : (if d = true then Mode.gone else .down : Mode ι) = .down ∨ (if d = true then Mode.gone else .down : Mode ι) = .gone := by
    cases d <;> simp
  cases hf₁
  rw [hfresh]
  refine ⟨⟨.run, [.proc p], k, rs⟩, ?_, rfl, rfl⟩
  cases d with
  | true =>
    have := hI₁.arrive hx₁ hT₁ hmode (fun c => c) (fun _ => ⟨rfl, rfl, rfl⟩) hk
    rw [m₁.setCpu_id] at this
    exact this
  | false => exact hI₁.arrive hx₁ hT₁ hmode (fun c => { c with intena := m.cpu.intena }) (fun _ => ⟨rfl, rfl, rfl⟩) hk

omit [DecidableEq κ] in
/-- What follows `sched` when it returns to the process that called it. -/
theorem does_resumed {a : Code H ι κ α} {Q : α → Token ι κ → Prop} (ha : Does init x a t Q) {fresh : Bool}
    (hfresh : fresh = false) : Does init x (resumed a fresh) t Q := by
  subst hfresh
  exact ha

omit [DecidableEq κ] in
/-- `sched` and what follows it. -/
theorem does_sched_then {a : Code H ι κ α} {Q : α → Token ι κ → Prop} (hk : k.lock p = none)
    (ha : Does init (.proc p : Thread H ι) a ⟨.run, [.proc p], k, rs⟩ Q) :
    Does init (.proc p : Thread H ι) (do let fresh ← sched p; resumed a fresh) ⟨.leaving false, [.proc p], k, rs⟩ Q := by
  apply (does_sched hk).bind
  intro fresh t' ht
  obtain ⟨hfresh, rfl⟩ := ht
  exact does_resumed ha hfresh

omit [DecidableEq H] [DecidableEq κ] in
/-- A change of a running process's state is mild. -/
theorem Inv.run_mild {m : Machine H ι κ} {T : Thread H ι → Token ι κ} (hI : Inv init m T)
    (hT : T (.proc p) = ⟨.run, held, k, rs⟩) {y : Proc ι κ} (hy : y.state = .runnable ∨ y.state = .sleeping)
    (hparent : y.parent = (m.procs p).parent) (hpid : y.pid = (m.procs p).pid) : Mild (m.procs p) y := by
  have hrun := (hI.handOver.run_state (p := p) (by rw [hT])).1
  refine .state (by simp [hrun]) ?_ hparent hpid
  obtain hy | hy := hy <;> simp [hy]

theorem does_yield (hk : k.lock p = none) :
    Does init (.proc p : Thread H ι) (yield p : Code H ι κ Unit) ⟨.run, [], k, rs⟩ fun _ t => t = ⟨.run, [], k, rs⟩ := by
  apply does_seq (does_acquire (.inr rfl))
  intro _
  have hpause : Does init (.proc p : Thread H ι) (modify fun m : Machine H ι κ => m.setProc p fun x => { x with state := .runnable })
      ⟨.run, [.proc p], k, rs⟩ fun _ t => t = ⟨.leaving false, [.proc p], k, rs⟩ := by
    apply does_modify
    intro m T hI hx hT
    have hmild : Mild (m.procs p) { m.procs p with state := .runnable } := hI.run_mild hT (.inl rfl) rfl rfl
    exact hI.pause hx hT (List.mem_singleton_self _) (.inl rfl) hmild (fun _ ha => nomatch ha.1) (.inl ⟨rfl, hk⟩)
  apply does_seq hpause
  intro _
  apply does_sched_then hk
  apply does_release_idle (.inr rfl)
  intro q hq
  cases hq
  exact hk

/-! ### Sleeping -/

/-- `sleep` on a channel of the rest of the kernel. -/
theorem does_sleep {c l : κ} (hk : k.lock p = none) :
    Does init (.proc p : Thread H ι) (sleep p (.other c) (.other l)) ⟨.run, [.other l], k, rs⟩
      fun _ t => t = ⟨.run, [.other l], k, rs⟩ := by
  have hidle : ∀ q, (.proc p : Thread H ι) = .proc q → k.lock q = none := by
    intro q hq
    cases hq
    exact hk
  unfold sleep
  rw [if_neg fun h => nomatch h]
  apply does_seq (does_acquire (.inr rfl))
  intro _
  have hrelease : Does init (.proc p : Thread H ι) (release (.other l)) ⟨.run, [.proc p, .other l], k, rs⟩
      fun _ t => t = ⟨.run, [.proc p], k, rs⟩ := by
    apply does_release (by simp) (.inr (.inl rfl))
    exact .inl ⟨rfl, fun q o hq ho => nomatch (hidle q hq).symm.trans ho⟩
  apply does_seq hrelease
  intro _
  have hpause : Does init (.proc p : Thread H ι)
      (modify fun m : Machine H ι κ => m.setProc p fun x => { x with chan := some (.other c), state := .sleeping })
      ⟨.run, [.proc p], k, rs⟩ fun _ t => t = ⟨.leaving false, [.proc p], k, rs⟩ := by
    apply does_modify
    intro m T hI hx hT
    have hmild : Mild (m.procs p) { m.procs p with chan := some (.other c), state := .sleeping } :=
      hI.run_mild hT (.inr rfl) rfl rfl
    exact hI.pause hx hT (List.mem_singleton_self _) (.inr rfl) hmild (fun _ ha => nomatch ha.2) (.inl ⟨rfl, hk⟩)
  apply does_seq hpause
  intro _
  apply does_sched_then hk
  have htidy : Does init (.proc p : Thread H ι) (modify fun m : Machine H ι κ => m.setProc p fun x => { x with chan := none })
      ⟨.run, [.proc p], k, rs⟩ fun _ t => t = ⟨.run, [.proc p], k, rs⟩ := by
    apply does_modify
    intro m T hI hx hT
    rw [← hT, Function.update_eq_self]
    exact hI.touch hx hT (.inr rfl) (List.mem_singleton_self _) (.inl rfl) ⟨⟨Iff.rfl, fun _ => ⟨rfl, rfl⟩, id⟩, rfl, Iff.rfl⟩
      fun ha => nomatch ha.2
  apply does_seq htidy
  intro _
  apply does_seq (does_release_idle (.inr rfl) hidle)
  intro _
  exact does_acquire (.inr rfl)

/-- `sleep` in `wait`, after a scan of the whole table; the next scan begins. -/
theorem does_sleep_wait {scanned : List ι} (hall : ∀ q, q ∈ scanned) :
    Does init (.proc p : Thread H ι) (sleep p (.proc p) (.proc p) : Code H ι κ Unit)
      ⟨.run, [.proc p], .waiting scanned none, rs⟩ fun _ t => t = ⟨.run, [.proc p], .waiting [] none, rs⟩ := by
  unfold sleep
  rw [if_pos rfl]
  have hpause : Does init (.proc p : Thread H ι)
      (modify fun m : Machine H ι κ => m.setProc p fun x => { x with chan := some (.proc p), state := .sleeping })
      ⟨.run, [.proc p], .waiting scanned none, rs⟩ fun _ t => t = ⟨.leaving false, [.proc p], .none, rs⟩ := by
    apply does_modify
    intro m T hI hx hT
    have hmild : Mild (m.procs p) { m.procs p with chan := some (.proc p), state := .sleeping } :=
      hI.run_mild hT (.inr rfl) rfl rfl
    refine hI.pause hx hT (List.mem_singleton_self _) (.inr rfl) hmild (fun hp _ q hq => ?_)
      (.inr ⟨rfl, fun _ h => nomatch h⟩)
    have ht := hI.family.task p
    rw [hT] at ht
    cases ht with
    | none task => cases task
    | exiting parent orphaned child task => cases task
    | forking q' stage' task => cases task
    | waiting scanned' child task mode held alive =>
      cases task
      exact alive hp q (hall q) hq
  apply does_seq hpause
  intro _
  apply does_sched_then rfl
  apply does_modify
  intro m T hI hx hT
  have htidy : Inv init (m.setProc p fun x => { x with chan := none }) T :=
    hI.touch hx hT (.inr rfl) (List.mem_singleton_self _) (.inl rfl) ⟨⟨Iff.rfl, fun _ => ⟨rfl, rfl⟩, id⟩, rfl, Iff.rfl⟩
      fun ha => nomatch ha.2
  apply htidy.retask hT
  · intro _
    exact .waiting [] none rfl rfl (List.mem_singleton_self _) (fun _ _ h => nomatch h) fun _ h => nomatch h
  · exact fun _ h => nomatch h

/-! ### Waking up -/

theorem does_wakeup {c : Chan ι κ} (hstage : mode = .loop ∨ mode = .run) (hk : ∀ p, x = .proc p → k.lock p = none)
    (table : List ι) : Does init x (wakeup c table) ⟨mode, held, k, rs⟩ fun _ t => t = ⟨mode, held, k, rs⟩ := by
  induction table with
  | nil => rfl
  | cons q rest ih =>
    apply does_seq (does_acquire hstage)
    intro _
    have hwake : Does init x (modify fun m : Machine H ι κ => m.setProc q (Proc.wake c)) ⟨mode, .proc q :: held, k, rs⟩
        fun _ t => t = ⟨mode, .proc q :: held, k, rs⟩ := by
      apply does_modify
      intro m T hI hx hT
      rw [← hT, Function.update_eq_self]
      exact hI.wake hx hT hstage List.mem_cons_self c
    apply does_seq hwake
    intro _
    apply does_seq (does_release_idle hstage hk)
    exact fun _ => ih

theorem does_kill (hk : k.lock p = none) (pid : Int) (table : List ι) :
    Does init (.proc p : Thread H ι) (kill pid table : Code H ι κ Int) ⟨.run, held, k, rs⟩
      fun _ t => t = ⟨.run, held, k, rs⟩ := by
  have hidle : ∀ q, (.proc p : Thread H ι) = .proc q → k.lock q = none := by
    intro q hq
    cases hq
    exact hk
  induction table with
  | nil => rfl
  | cons q rest ih =>
    apply does_seq (does_acquire (.inr rfl))
    intro _
    apply does_act
    intro m T m' hI hx hT hf
    by_cases hpid : (m.procs q).pid = pid
    · simp only [hpid, if_true] at hf ⊢
      cases hf
      refine ⟨⟨.run, .proc q :: held, k, rs⟩, ?_, does_map (does_release_idle (.inr rfl) hidle)⟩
      rw [← hT, Function.update_eq_self]
      by_cases hs : (m.procs q).state = .sleeping
      · have hstate : (m.procs q).kill.state = .runnable := if_pos hs
        refine hI.touch hx hT (.inr rfl) List.mem_cons_self (.inr ⟨hs, hstate⟩) (.state ?_ ?_ rfl rfl) fun ha => ?_
        · simp [hs]
        · simp [hstate]
        · exact nomatch hstate.symm.trans ha.1
      · have hstate : (m.procs q).kill.state = (m.procs q).state := if_neg hs
        refine hI.touch hx hT (.inr rfl) List.mem_cons_self (.inl hstate) ⟨⟨?_, fun _ => ⟨rfl, rfl⟩, id⟩, rfl, ?_⟩ fun ha => ?_
        · rw [hstate]
        · rw [hstate]
        · exact ⟨hstate.symm.trans ha.1, ha.2⟩
    · simp only [hpid, if_false] at hf ⊢
      cases hf
      refine ⟨T (.proc p), ?_, ?_⟩
      · rw [Function.update_eq_self]
        exact hI
      · rw [hT]
        apply does_seq (does_release_idle (.inr rfl) hidle)
        exact fun _ => ih

/-- The rest of the kernel keeps to its locks. -/
theorem does_ops {table : List ι} {ops : List (Op κ)} {held : List κ} (hops : Op.disciplined held ops) :
    Does init (.proc p : Thread H ι) (Op.run table p ops) ⟨.run, held.map .other, .none, rs⟩
      fun _ t => t = ⟨.run, [], .none, rs⟩ := by
  induction ops generalizing held with
  | nil =>
    cases hops
    rfl
  | cons op rest ih =>
    cases op with
    | lock l =>
      apply does_seq (does_acquire (.inr rfl))
      exact fun _ => ih hops
    | unlock l =>
      have hinj : Function.Injective (Lock.other : κ → Lock ι κ) := fun _ _ h => Lock.other.inj h
      have hrelease : Does init (.proc p : Thread H ι) (release (.other l)) ⟨.run, held.map .other, .none, rs⟩
          fun _ t => t = ⟨.run, (held.erase l).map .other, .none, rs⟩ := by
        apply does_release (List.map_erase hinj held).symm (.inr (.inl rfl))
        exact .inl ⟨rfl, fun _ _ _ ho => nomatch ho⟩
      apply does_seq hrelease
      exact fun _ => ih hops
    | sleep c l =>
      obtain ⟨rfl, hops⟩ := hops
      apply does_seq (does_sleep rfl)
      exact fun _ => ih hops
    | wakeup c =>
      apply does_seq (does_wakeup (.inr rfl) (fun _ _ => rfl) table)
      exact fun _ => ih hops

end Farron.Harts
