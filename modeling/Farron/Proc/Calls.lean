import Farron.Proc.Threads

/-! What `fork`, `exit`, `wait` and the scheduler do to the token of a thread.

One triple for each function, and one for each loop by induction over the table or the rounds. -/
namespace Farron.Harts
open Resumption
variable {H ι κ : Type} [DecidableEq H] [DecidableEq ι] [DecidableEq κ]
variable {init p q : ι} {x : Thread H ι} {held : List (Lock ι κ)} {k : Task ι} {rs : List (Int × Int)} {table : List ι}
variable {α β : Type} {t u : Token ι κ}

omit [DecidableEq κ] in
/-- A section that only looks; the thread may take up another task. -/
theorem does_look {c : Machine H ι κ → Code H ι κ α} {Q : α → Token ι κ → Prop}
    (h : ∀ m T, Inv init m T → m.exec m.hart = x → T x = t →
      ∃ t', Inv init m (Function.update T x t') ∧ Does init x (c m) t' Q) :
    Does init x (.look () >>= c) t Q := by
  apply does_act
  intro m T m' hI hx hT hf
  cases hf
  exact h m T hI hx hT

omit [DecidableEq κ] in
/-- A section that only looks. -/
theorem does_glance {c : Machine H ι κ → Code H ι κ α} {Q : α → Token ι κ → Prop}
    (h : ∀ m T, Inv init m T → m.exec m.hart = x → T x = t → Does init x (c m) t Q) :
    Does init x (.look () >>= c) t Q := by
  apply does_look
  intro m T hI hx hT
  refine ⟨t, ?_, h m T hI hx hT⟩
  rw [← hT, Function.update_eq_self]
  exact hI

/-- The lock taken last is released, and the task is over. -/
theorem does_release_over {l : Lock ι κ} (hk : ∀ q, k ≠ .forking q .linked) :
    Does init x (release l) ⟨.run, l :: held, k, rs⟩ fun _ t => t = ⟨.run, held, .none, rs⟩ :=
  does_release (List.erase_cons_head ..) (.inr (.inl rfl)) (.inr ⟨rfl, hk⟩)

/-! ### Creating processes -/

theorem does_allocpid {stage : Stage} :
    Does init (.proc p : Thread H ι) (allocpid : Code H ι κ Int) ⟨.run, held, .forking q stage, rs⟩
      fun pid t => 0 ≤ pid ∧ t = ⟨.run, held, .forking q stage, rs⟩ := by
  apply does_seq (does_acquire (.inr rfl))
  intro _
  apply does_glance
  intro m T hI _ _
  have hpid := hI.ledger.nextpid
  have hcount : Does init (.proc p : Thread H ι) (modify fun m : Machine H ι κ => { m with nextpid := m.nextpid + 1 })
      ⟨.run, .pid :: held, .forking q stage, rs⟩ fun _ t => t = ⟨.run, .pid :: held, .forking q stage, rs⟩ := by
    apply does_modify
    intro m T hI hx hT
    have hH : HandOver { m with nextpid := m.nextpid + 1 } T := hI.handOver.frame rfl rfl rfl rfl rfl
    rw [← Function.update_eq_self (.proc p) T, hT] at hH
    exact hI.quiet hT hH rfl (fun _ _ _ _ _ => rfl) rfl rfl (Int.add_nonneg hI.ledger.nextpid (by decide))
      (fun r _ hk => hk.keep rfl rfl fun _ _ ho => ho) fun _ hk => hk
  apply does_seq hcount
  intro _
  have hrelease : Does init (.proc p : Thread H ι) (release .pid) ⟨.run, .pid :: held, .forking q stage, rs⟩
      fun _ t => t = ⟨.run, held, .forking q stage, rs⟩ := by
    apply does_release (List.erase_cons_head ..) (.inr (.inl rfl))
    refine .inl ⟨rfl, fun r o _ _ ho => ?_⟩
    rw [List.erase_cons_head]
    exact (List.mem_cons.mp ho).resolve_left fun h => nomatch h
  apply does_seq hrelease
  exact fun _ => ⟨hpid, rfl⟩

omit [DecidableEq κ] in
/-- The slot a process fills gets a pid. -/
theorem does_setPid {pid : Int} (hpid : 0 ≤ pid) {stage : Stage} :
    Does init (.proc p : Thread H ι) (modify fun m : Machine H ι κ => m.setProc q fun x => { x with pid })
      ⟨.run, held, .forking q stage, rs⟩ fun _ t => t = ⟨.run, held, .forking q stage, rs⟩ := by
  apply does_modify
  intro m T hI hx hT
  obtain ⟨_, hq, hstate, _⟩ := hI.forking hT
  rw [← hT, Function.update_eq_self]
  refine hI.touch hx hT (.inr rfl) hq (.inl rfl) ⟨⟨Iff.rfl, fun hz => ?_, fun _ => hpid⟩, rfl, Iff.rfl⟩ fun ha => ha
  rw [hstate] at hz
  cases hz

variable [Fintype H]

/-- A process that fills a slot gives it up. -/
theorem does_unfork {stage : Stage} (hstage : stage ≠ .linked) {a : Code H ι κ α} {Q : α → Token ι κ → Prop}
    (ha : Does init (.proc p : Thread H ι) a ⟨.run, [], .none, rs⟩ Q) :
    Does init (.proc p : Thread H ι) (do modify fun m : Machine H ι κ => m.freeproc p q; release (.proc q); a)
      ⟨.run, [.proc q], .forking q stage, rs⟩ Q := by
  have hfree : Does init (.proc p : Thread H ι) (modify fun m : Machine H ι κ => m.freeproc p q)
      ⟨.run, [.proc q], .forking q stage, rs⟩ fun _ t => t = ⟨.run, [.proc q], .none, rs⟩ := by
    apply does_modify
    intro m T hI hx hT
    exact hI.unfork hx hstage hT
  apply does_seq hfree
  intro _
  refine does_seq (does_release_over ?_) fun _ => ha
  exact fun _ h => nomatch h

/-- What `allocproc` returns, and with which token. -/
def Allocated (rs : List (Int × Int)) (r : Option ι) (t : Token ι κ) : Prop :=
  match r with
  | none => t = ⟨.run, [], .none, rs⟩
  | some q => t = ⟨.run, [.proc q], .forking q .made, rs⟩

theorem does_allocate (fail : Option Failure) :
    Does init (.proc p : Thread H ι) (allocate p fail q : Code H ι κ (Option ι)) ⟨.run, [.proc q], .forking q .found, rs⟩
      (Allocated rs) := by
  apply does_allocpid.bind
  intro pid t ht
  obtain ⟨hpid, rfl⟩ := ht
  apply does_seq (does_setPid hpid)
  intro _
  have hmake : Does init (.proc p : Thread H ι)
      (do modify fun m : Machine H ι κ => { m with fresh := Function.update m.fresh q true }; return some q)
      ⟨.run, [.proc q], .forking q .found, rs⟩ (Allocated rs) := by
    have hmade : Does init (.proc p : Thread H ι)
        (modify fun m : Machine H ι κ => { m with fresh := Function.update m.fresh q true })
        ⟨.run, [.proc q], .forking q .found, rs⟩ fun _ t => t = ⟨.run, [.proc q], .forking q .made, rs⟩ := by
      apply does_modify
      intro m T hI hx hT
      exact hI.made hx hT
    apply does_seq hmade
    exact fun _ => rfl
  cases fail with
  | none => exact hmake
  | some f =>
    cases f with
    | copy => exact hmake
    | trapframe =>
      refine does_seq (does_release_over ?_) fun _ => rfl
      exact fun _ h => nomatch h
    | tables =>
      apply does_unfork
      · exact fun h => nomatch h
      · exact rfl

theorem does_allocproc (fail : Option Failure) (table : List ι) :
    Does init (.proc p : Thread H ι) (allocproc p fail table : Code H ι κ (Option ι)) ⟨.run, [], .none, rs⟩
      (Allocated rs) := by
  induction table with
  | nil => exact rfl
  | cons q rest ih =>
    apply does_seq (does_acquire (.inr rfl))
    intro _
    apply does_look
    intro m T hI hx hT
    by_cases hstate : (m.procs q).state = .unused
    · simp only [hstate, if_true]
      refine ⟨⟨.run, [.proc q], .forking q .found, rs⟩, hI.retask hT (fun _ => ?_) (fun _ h => by cases h), does_allocate fail⟩
      exact .forking q .found rfl rfl (List.mem_singleton_self _) hstate (fun h => absurd rfl h) fun h => by cases h
    · simp only [hstate, if_false]
      refine ⟨T (.proc p), ?_, ?_⟩
      · rw [Function.update_eq_self]
        exact hI
      · rw [hT]
        refine does_seq (does_release_over ?_) fun _ => ih
        exact fun _ h => by cases h

theorem does_fork (fail : Option Failure) :
    Does init (.proc p : Thread H ι) (fork table p fail : Code H ι κ Int) ⟨.run, [], .none, rs⟩
      fun _ t => t = ⟨.run, [], .none, rs⟩ := by
  apply (does_allocproc fail table).bind
  intro r t ht
  cases r with
  | none => exact ht
  | some q =>
    cases ht
    by_cases hfail : fail = some .copy
    · simp only [hfail, if_true]
      apply does_unfork
      · exact fun h => by cases h
      · exact rfl
    · simp only [hfail, if_false]
      have hlink : Does init (.proc p : Thread H ι) (modify fun m : Machine H ι κ => m.setProc q fun x => { x with parent := some p })
          ⟨.run, [.proc q], .forking q .made, rs⟩ fun _ t => t = ⟨.run, [.proc q], .forking q .linked, rs⟩ := by
        apply does_modify
        intro m T hI hx hT
        exact hI.link hx hT
      apply does_seq hlink
      intro _
      apply does_glance
      intro m T _ _ _
      have hbirth : Does init (.proc p : Thread H ι) (modify fun m : Machine H ι κ => m.setProc q fun x => { x with state := .runnable })
          ⟨.run, [.proc q], .forking q .linked, rs⟩ fun _ t => t = ⟨.run, [.proc q], .none, rs⟩ := by
        apply does_modify
        intro m T hI hx hT
        exact hI.birth hx hT
      apply does_seq hbirth
      intro _
      apply does_map
      exact does_release_over fun _ h => by cases h

omit [Fintype H] in
theorem does_forkret : Does init (.proc p : Thread H ι) (forkret p : Code H ι κ Unit) ⟨.run, [.proc p], .none, rs⟩
    fun _ t => t = ⟨.run, [], .none, rs⟩ := by
  refine does_seq (does_release_over ?_) fun _ => does_intr (.inr rfl) true
  exact fun _ h => nomatch h

/-! ### Ending processes -/

omit [Fintype H] in
theorem does_reparent {parent : ι} {orphaned : List ι} (table : List ι) :
    Does init (.proc p : Thread H ι) (reparent init p table : Code H ι κ Unit) ⟨.run, held, .exiting parent orphaned none, rs⟩
      fun _ t => t = ⟨.run, held, .exiting parent (table.reverse ++ orphaned) none, rs⟩ := by
  induction table generalizing orphaned with
  | nil => rfl
  | cons q rest ih =>
    rw [List.reverse_cons, List.append_assoc]
    apply does_look
    intro m T hI hx hT
    obtain ⟨hother, hparents, horphans, _⟩ := hI.exiting hT
    by_cases hmine : (m.procs q).parent = some p
    · simp only [hmine, if_true]
      refine ⟨⟨.run, held, .exiting parent orphaned (some q), rs⟩, hI.retask hT (fun ht => ?_) (fun _ h => by cases h), ?_⟩
      · cases ht with
        | none task => cases task
        | waiting scanned child task => cases task
        | forking q' stage' task => cases task
        | exiting parent' orphaned' child task other parents used alive orphans =>
          cases task
          exact .exiting parent orphaned (some q) rfl other parents used alive orphans fun _ h => Option.some.inj h ▸ hmine
      · apply does_seq (does_acquire (.inr rfl))
        intro _
        have hadopt : Does init (.proc p : Thread H ι)
            (modify fun m : Machine H ι κ => m.setProc q fun x => { x with parent := some init })
            ⟨.run, .proc q :: held, .exiting parent orphaned (some q), rs⟩
            fun _ t => t = ⟨.run, .proc q :: held, .exiting parent (q :: orphaned) none, rs⟩ := by
          apply does_modify
          intro m T hI hx hT
          exact hI.adopt hx hT List.mem_cons_self
        apply does_seq hadopt
        intro _
        apply does_seq (does_release_idle (.inr rfl) fun _ _ => rfl)
        exact fun _ => ih
    · simp only [hmine, if_false]
      refine ⟨⟨.run, held, .exiting parent (q :: orphaned) none, rs⟩, hI.retask hT (fun ht => ?_) (fun _ h => by cases h), ih⟩
      cases ht with
      | none task => cases task
      | waiting scanned child task => cases task
      | forking q' stage' task => cases task
      | exiting parent' orphaned' child task other parents used alive orphans mine =>
        cases task
        refine .exiting parent (q :: orphaned) none rfl other parents used alive (fun r hr => ?_) mine
        obtain rfl | hr := List.mem_cons.mp hr
        · exact hmine
        · exact orphans r hr

omit [Fintype H] in
/-- `exit` becomes a zombie; two locks are held, so they are different ones. -/
theorem does_die {parent : ι} {orphaned : List ι} (hall : ∀ r, r ∈ orphaned) (status : Int) :
    Does init (.proc p : Thread H ι) (die p parent status : Code H ι κ Unit)
      ⟨.run, [.proc p, .proc parent], .exiting parent orphaned none, rs⟩
      fun _ t => p ≠ parent ∧ t = ⟨.leaving true, [.proc p, .proc parent], .none, rs⟩ := by
  apply does_act
  intro m T m' hI hx hT hf
  have hhold : m.holding (.proc parent) := by
    apply (hI.handOver.locks _ _).mpr
    rw [hx, hT]
    exact List.mem_cons_of_mem _ (List.mem_singleton_self _)
  have hnodup := hI.handOver.nodup m.hart
  rw [hx, hT] at hnodup
  have hne : p ≠ parent := by
    intro h
    rw [h] at hnodup
    exact (List.nodup_cons.mp hnodup).1 (List.mem_singleton_self _)
  simp only [hhold, if_true] at hf ⊢
  cases hf
  exact ⟨_, hI.die hx hT hall List.mem_cons_self (List.mem_cons_of_mem _ (List.mem_singleton_self _)) status, hne, rfl⟩

omit [Fintype H] in
theorem does_wakeup1 :
    Does init x (wakeup1 q : Code H ι κ Unit) ⟨.run, .proc q :: held, k, rs⟩ fun _ t => t = ⟨.run, .proc q :: held, k, rs⟩ := by
  apply does_act
  intro m T m' hI hx hT hf
  have hhold : m.holding (.proc q) := by
    apply (hI.handOver.locks _ _).mpr
    rw [hx, hT]
    exact List.mem_cons_self
  simp only [hhold, if_true] at hf ⊢
  cases hf
  refine ⟨_, ?_, rfl⟩
  rw [← hT, Function.update_eq_self]
  exact hI.wake hx hT (.inr rfl) List.mem_cons_self (.proc q)

omit [Fintype H] in
theorem does_exit {ops : List (Op κ)} (hops : Op.disciplined [] ops) (hall : ∀ q, q ∈ table) (status : Int) :
    Does init (.proc p : Thread H ι) (exit table init p ops status : Code H ι κ Unit) ⟨.run, [], .none, rs⟩
      fun _ t => t = ⟨.run, [], .none, rs⟩ := by
  unfold exit
  by_cases hinit : p = init
  · rw [if_pos hinit]
    exact .inr (.inr (.inl rfl))
  rw [if_neg hinit]
  apply does_seq (does_ops hops)
  intro _
  apply does_seq (does_acquire (.inr rfl))
  intro _
  apply does_seq does_wakeup1
  intro _
  apply does_seq (does_release_idle (.inr rfl) fun _ _ => rfl)
  intro _
  apply does_seq (does_acquire (.inr rfl))
  intro _
  apply does_look
  intro m T hI hx hT
  have hrun := (hI.handOver.run_state (p := p) (by rw [hT])).1
  have hsome := hI.family.parented p hinit (by simp [hrun])
  obtain ⟨parent, hparent⟩ := Option.ne_none_iff_exists'.mp hsome
  refine ⟨⟨.run, [.proc p], .exiting parent [] none, rs⟩, hI.retask hT (fun _ => ?_) (fun _ h => nomatch h), ?_⟩
  · exact .exiting parent [] none rfl hinit (.inl hparent) (by simp [hrun]) (by simp [hrun]) (fun _ h => nomatch h) fun _ h => nomatch h
  rw [hparent]
  apply does_seq (does_release_idle (.inr rfl) fun _ _ => rfl)
  intro _
  apply does_seq (does_acquire (.inr rfl))
  intro _
  apply does_seq (does_acquire (.inr rfl))
  intro _
  apply does_seq (does_reparent table)
  intro _
  apply (does_die (by simpa using hall) status).bind
  intro _ t ht
  obtain ⟨hne, rfl⟩ := ht
  have hrelease : Does init (.proc p : Thread H ι) (release (.proc parent) : Code H ι κ Unit)
      ⟨.leaving true, [.proc p, .proc parent], .none, rs⟩ fun _ t => t = ⟨.leaving true, [.proc p], .none, rs⟩ := by
    apply does_release
    · rw [List.erase_cons_tail (by simpa using hne), List.erase_cons_head]
    · exact .inr (.inr ⟨p, true, rfl, rfl, List.mem_singleton_self _⟩)
    · exact .inl ⟨rfl, fun _ _ _ h => nomatch h⟩
  apply does_seq hrelease
  intro _
  apply (does_sched rfl).bind
  intro fresh t ht
  obtain ⟨rfl, rfl⟩ := ht
  exact does_forkret

/-! ### Waiting -/

/-- What `wait` returned for the reaped child `e`. -/
def Waited.Returns (r : Waited) (e : Int × Int) : Prop :=
  r.ret = e.1 ∧ 0 ≤ e.1 ∧ r.dest ≠ .bad ∧ r.status = if r.dest = .null then none else some e.2

/-- How `wait` ends: it has failed, or reaped a child. -/
inductive Ended (rs : List (Int × Int)) (r : Waited) (t : Token ι κ) : Prop
  | failed (ret : r.ret = -1) (t_eq : t = ⟨.run, [], .none, rs⟩)
  | reaped (e : Int × Int) (returns : r.Returns e) (t_eq : t = ⟨.run, [], .none, e :: rs⟩)

omit [Fintype H] in
theorem does_release_both {a : Code H ι κ α} {Q : α → Token ι κ → Prop}
    (ha : Does init (.proc p : Thread H ι) a ⟨.run, [], .none, rs⟩ Q) :
    Does init (.proc p : Thread H ι) (do release (.proc q); release (.proc p); a) ⟨.run, [.proc q, .proc p], .none, rs⟩ Q := by
  apply does_seq (does_release_idle (.inr rfl) fun _ _ => rfl)
  intro _
  apply does_seq (does_release_idle (.inr rfl) fun _ _ => rfl)
  exact fun _ => ha

theorem does_waitScan (dest : Dest) (table : List ι) {scanned : List ι} (havekids : Bool) :
    Does init (.proc p : Thread H ι) (waitScan p dest table havekids : Code H ι κ (Waited ⊕ Bool))
      ⟨.run, [.proc p], .waiting scanned none, rs⟩ fun r t => match r with
        | .inl r => Ended rs r t
        | .inr _ => t = ⟨.run, [.proc p], .waiting (table.reverse ++ scanned) none, rs⟩ := by
  induction table generalizing scanned havekids with
  | nil => exact rfl
  | cons q rest ih =>
    rw [List.reverse_cons, List.append_assoc]
    apply does_look
    intro m T hI hx hT
    by_cases hmine : (m.procs q).parent = some p
    · simp only [hmine, if_true]
      refine ⟨⟨.run, [.proc p], .waiting scanned (some q), rs⟩, hI.retask hT (fun ht => ?_) (fun _ h => by cases h), ?_⟩
      · cases ht with
        | none task => cases task
        | exiting parent' orphaned' child task => cases task
        | forking q' stage' task => cases task
        | waiting scanned' child task mode held alive mine =>
          cases task
          exact .waiting scanned (some q) rfl rfl held alive fun _ h => Option.some.inj h ▸ hmine
      apply does_seq (does_acquire (.inr rfl))
      intro _
      apply does_act
      intro m T m' hI hx hT hf
      by_cases hz : (m.procs q).state = .zombie
      · simp only [hz, if_true, true_and] at hf ⊢
        by_cases hbad : dest = .bad
        · -- the child stays a zombie
          simp only [hbad, ne_eq, not_true_eq_false, if_false] at hf
          cases hf
          refine ⟨⟨.run, [.proc q, .proc p], .none, rs⟩, hI.retask hT (fun _ => .none rfl) (fun _ h => by cases h), ?_⟩
          rw [if_pos hbad]
          apply does_release_both
          exact .failed rfl rfl
        · simp only [hbad, ne_eq, not_false_eq_true, if_true] at hf
          cases hf
          refine ⟨_, hI.reap hx hT List.mem_cons_self hz, ?_⟩
          rw [if_neg hbad]
          apply does_release_both
          exact .reaped ((m.procs q).pid, (m.procs q).xstate) ⟨rfl, hI.ledger.pid q, hbad, rfl⟩ rfl
      · simp only [hz, if_false, false_and] at hf ⊢
        cases hf
        refine ⟨⟨.run, [.proc q, .proc p], .waiting (q :: scanned) none, rs⟩, hI.retask hT (fun ht => ?_) (fun _ h => by cases h), ?_⟩
        · cases ht with
          | none task => cases task
          | exiting parent' orphaned' child task => cases task
          | forking q' stage' task => cases task
          | waiting scanned' child task mode held alive mine =>
            cases task
            refine .waiting (q :: scanned) none rfl rfl held (fun hp r hr hpar => ?_) fun _ h => by cases h
            obtain rfl | hr := List.mem_cons.mp hr
            · exact hz
            · exact alive hp r hr hpar
        · have hrelease : Does init (.proc p : Thread H ι) (release (.proc q) : Code H ι κ Unit)
              ⟨.run, [.proc q, .proc p], .waiting (q :: scanned) none, rs⟩
              fun _ t => t = ⟨.run, [.proc p], .waiting (q :: scanned) none, rs⟩ := by
            apply does_release (List.erase_cons_head ..) (.inr (.inl rfl))
            refine .inl ⟨rfl, fun r o hr ho _ => ?_⟩
            cases hr
            cases ho
            rw [List.erase_cons_head]
            exact List.mem_singleton_self _
          apply does_seq hrelease
          exact fun _ => ih true
    · simp only [hmine, if_false]
      refine ⟨⟨.run, [.proc p], .waiting (q :: scanned) none, rs⟩, hI.retask hT (fun ht => ?_) (fun _ h => by cases h), ih havekids⟩
      cases ht with
      | none task => cases task
      | exiting parent' orphaned' child task => cases task
      | forking q' stage' task => cases task
      | waiting scanned' child task mode held alive mine =>
        cases task
        refine .waiting (q :: scanned) none rfl rfl held (fun hp r hr hpar => ?_) mine
        obtain rfl | hr := List.mem_cons.mp hr
        · exact absurd hpar hmine
        · exact alive hp r hr hpar

theorem does_waitLoop (hall : ∀ q, q ∈ table) (dest : Dest) (rounds : Nat) :
    Does init (.proc p : Thread H ι) (waitLoop table p dest rounds : Code H ι κ Waited) ⟨.run, [.proc p], .waiting [] none, rs⟩
      (Ended rs) := by
  induction rounds with
  | zero => exact .inr (.inr (.inr rfl))
  | succ n ih =>
    apply (does_waitScan dest table false).bind
    intro r t ht
    cases r with
    | inl r => exact ht
    | inr havekids =>
      subst ht
      apply does_glance
      intro m T _ _ _
      by_cases hend : havekids = false ∨ (m.procs p).killed = true
      · simp only [hend, if_true]
        refine does_seq (does_release_over ?_) fun _ => .failed rfl rfl
        exact fun _ h => by cases h
      · simp only [hend, if_false]
        refine does_seq (does_sleep_wait ?_) fun _ => ih
        simpa using hall

theorem does_wait (hall : ∀ q, q ∈ table) (dest : Dest) (rounds : Nat) :
    Does init (.proc p : Thread H ι) (wait table rounds p dest : Code H ι κ Waited) ⟨.run, [], .none, rs⟩ (Ended rs) := by
  have hacquire : Does init (.proc p : Thread H ι) (acquire (.proc p) : Code H ι κ Unit) ⟨.run, [], .none, rs⟩
      fun _ t => t = ⟨.run, [.proc p], .waiting [] none, rs⟩ := by
    apply does_acquire_for (.inr rfl)
    intro m T hI hT
    apply hI.retask hT
    · intro _
      exact .waiting [] none rfl rfl List.mem_cons_self (fun _ _ h => nomatch h) fun _ h => nomatch h
    · exact fun _ h => nomatch h
  apply does_seq hacquire
  exact fun _ => does_waitLoop hall dest rounds

/-! ### The scheduler and interrupts -/

omit [Fintype H] in
theorem does_schedule {h : H} (table : List ι) :
    Does init (.sched h) (schedule table : Code H ι κ Unit) ⟨.loop, [], k, rs⟩ fun _ t => t = ⟨.loop, [], k, rs⟩ := by
  induction table with
  | nil => rfl
  | cons q rest ih =>
    apply does_seq (does_acquire (.inl rfl))
    intro _
    apply does_act
    intro m T m' hI hx hT hf
    by_cases hrun : (m.procs q).state = .runnable
    · simp only [hrun, if_true] at hf ⊢
      cases hf
      refine ⟨_, hI.choose hx hT hrun, ?_⟩
      have hgo : Does init (.sched h) (modify fun m : Machine H ι κ => m.setExec (.proc q)) ⟨.chosen q, [.proc q], k, rs⟩
          fun _ t => t = ⟨.away q, [.proc q], k, rs⟩ := by
        apply does_modify
        intro m T hI hx hT
        exact hI.go hx hT
      apply does_seq hgo
      intro _
      have hback : Does init (.sched h) (modify fun m : Machine H ι κ => m.setCpu fun c => { c with proc := none })
          ⟨.away q, [.proc q], k, rs⟩ fun _ t => t = ⟨.loop, [.proc q], k, rs⟩ := by
        apply does_modify
        intro m T hI hx hT
        exact hI.back hx hT
      apply does_seq hback
      intro _
      refine does_seq (does_release_idle (.inl rfl) ?_) fun _ => ih
      exact fun _ h => by cases h
    · simp only [hrun, if_false] at hf ⊢
      cases hf
      refine ⟨T (.sched h), ?_, ?_⟩
      · rw [Function.update_eq_self]
        exact hI
      · rw [hT]
        refine does_seq (does_release_idle (.inl rfl) ?_) fun _ => ih
        exact fun _ h => by cases h

omit [Fintype H] in
theorem does_scheduler {h : H} :
    Does init (.sched h) (scheduler table : Code H ι κ Unit) ⟨.loop, [], k, rs⟩ fun _ t => t = ⟨.loop, [], k, rs⟩ := by
  apply does_seq (does_intr (.inl rfl) true)
  exact fun _ => does_schedule table

omit [DecidableEq H] [DecidableEq κ] [Fintype H] in
/-- Where interrupts are on, no lock is held, and a task does not need one. -/
theorem Inv.interruptible {m : Machine H ι κ} {T : Thread H ι → Token ι κ} (hI : Inv init m T) (hx : m.exec m.hart = x)
    (hsie : m.cpu.sie = true) :
    ∃ mode k rs, T x = ⟨mode, [], k, rs⟩ ∧ (mode = .loop ∨ mode = .run) ∧ ∀ p, x = .proc p → k.lock p = none := by
  have hheld : (T x).held = [] := by
    have hnoff := hI.handOver.noff m.hart
    rw [hx] at hnoff
    apply List.eq_nil_of_length_eq_zero
    rw [← hnoff]
    by_contra hpos
    have := hI.handOver.sie m.hart (Nat.pos_of_ne_zero hpos)
    exact nomatch this.symm.trans hsie
  refine ⟨(T x).mode, (T x).task, (T x).reaped, ?_, ?_, fun p hp => ?_⟩
  · rw [← hheld]
  · cases x with
    | sched h =>
      cases hI.handOver.sched h with
      | loop mode => exact .inl mode
      | chosen q mode _ held => rw [held] at hheld; cases hheld
      | away q mode held => rw [held] at hheld; cases hheld
    | proc p =>
      cases hI.handOver.proc p with
      | run mode => exact .inr mode
      | leaving d mode _ _ held => rw [hheld] at held; cases held
      | down mode held => rw [held] at hheld; cases hheld
      | gone mode held => rw [held] at hheld; cases hheld
  · cases hlock : (T x).task.lock p with
    | none => rfl
    | some o =>
      subst hp
      have := (hI.family.task p).locked hlock
      rw [hheld] at this
      cases this

omit [Fintype H] in
theorem does_kerneltrap (irq : Irq κ) {mode : Mode ι} (hstage : mode = .loop ∨ mode = .run)
    (hk : ∀ p, x = .proc p → k.lock p = none) :
    Does init x (kerneltrap table irq) ⟨mode, [], k, rs⟩ fun _ t => t = ⟨mode, [], k, rs⟩ := by
  cases irq with
  | device c =>
    apply does_seq (does_intr hstage false)
    intro _
    apply does_seq (does_wakeup hstage hk table)
    exact fun _ => does_intr hstage true
  | timer =>
    apply does_act
    intro m T m' hI hx hT hf
    cases hf
    refine ⟨⟨mode, [], k, rs⟩, ?_, ?_⟩
    · rw [← hT, Function.update_eq_self]
      exact hI.intr hx hT hstage false
    cases x with
    | sched h =>
      have hh := hI.handOver.sched_here hx
      have hcpu : m.cpu.proc = none := by
        cases hI.handOver.sched h with
        | loop _ _ cpu => rw [hh] at cpu; exact cpu
        | chosen q mode _ held => rw [hT] at held; cases held
        | away q mode held => rw [hT] at held; cases held
      rw [hcpu]
      exact does_intr hstage true
    | proc p =>
      have hcpu : m.cpu.proc = some p := hI.handOver.cpu_proc hx
      have hmode : mode = .run := by
        cases hI.handOver.proc p with
        | run mode => rw [hT] at mode; exact mode
        | leaving d mode _ _ held => rw [hT] at held; cases held
        | down mode held => rw [hT] at held; cases held
        | gone mode held => rw [hT] at held; cases held
      subst hmode
      have hrun := (hI.handOver.run_state (p := p) (by rw [hT])).1
      rw [hcpu]
      simp only [hrun, if_true]
      apply does_seq (does_yield (hk p rfl))
      exact fun _ => does_intr (.inr rfl) true

end Farron.Harts
