import Farron.Proc.Calls
import Mathlib.Data.Fintype.Basic

/-! Runs of the harts from boot.

Every call keeps the invariant, so it holds in every reachable configuration. Read out, it says
where processes run (`runs_on_one_hart`) and how exits and waits meet (`exit_wait`). -/
namespace Farron.Harts
open Resumption
variable {H ι κ : Type} [DecidableEq H] [DecidableEq ι] [DecidableEq κ] [Fintype H]
variable {init p : ι} {x : Thread H ι} {rs : List (Int × Int)} {table : List ι} {rounds : Nat}

/-- The results of a process's calls of `wait` are those of the children it has reaped. -/
def Delivered (l : Local) (rs : List (Int × Int)) : Prop :=
  (∀ r ∈ l, r.dest = .bad → r.ret = -1) ∧ List.Forall₂ Waited.Returns (l.filter fun r => r.ret ≠ -1) rs

/-- The token of an idle thread. -/
def idleToken : Thread H ι → Local → Token ι κ → Prop
  | .sched _, _, t => ∃ rs, t = ⟨.loop, [], .none, rs⟩
  | .proc _, l, t => ∃ rs, t = ⟨.run, [], .none, rs⟩ ∧ Delivered l rs

omit [DecidableEq ι] [DecidableEq κ] in
theorem Delivered.wait {l : Local} (h : Delivered l rs) {r : Waited} {t : Token ι κ} (hr : Ended rs r t) :
    ∃ rs', t = ⟨.run, [], .none, rs'⟩ ∧ Delivered (r :: l) rs' := by
  cases hr with
  | failed ret t_eq =>
    refine ⟨rs, t_eq, fun r' hr' hbad => ?_, ?_⟩
    · obtain rfl | hr' := List.mem_cons.mp hr'
      · exact ret
      · exact h.1 r' hr' hbad
    · simpa [ret] using h.2
  | reaped e returns t_eq =>
    obtain ⟨hret, hpid, hdest, hstatus⟩ := returns
    refine ⟨e :: rs, t_eq, fun r' hr' hbad => ?_, ?_⟩
    · obtain rfl | hr' := List.mem_cons.mp hr'
      · exact absurd hbad hdest
      · exact h.1 r' hr' hbad
    · have hne : r.ret ≠ -1 := by
        rw [hret]
        omega
      simp only [List.filter_cons, hne, ne_eq, not_false_eq_true, decide_true, if_true]
      exact .cons ⟨hret, hpid, hdest, hstatus⟩ (by simpa using h.2)

omit [DecidableEq κ] [Fintype H] in
theorem does_syscall {a : Code H ι κ Local} {P : Local → List (Int × Int) → Prop}
    (ha : Does init (.proc p : Thread H ι) a ⟨.run, [], .none, rs⟩ fun l t => ∃ rs', t = ⟨.run, [], .none, rs'⟩ ∧ P l rs') :
    Does init (.proc p : Thread H ι) (syscall a) ⟨.run, [], .none, rs⟩ fun l t => ∃ rs', t = ⟨.run, [], .none, rs'⟩ ∧ P l rs' := by
  apply does_seq (does_intr (.inr rfl) true)
  intro _
  apply ha.bind
  intro l t ht
  obtain ⟨rs', rfl, hP⟩ := ht
  apply does_seq (does_intr (.inr rfl) true)
  exact fun _ => ⟨rs', rfl, hP⟩

omit [DecidableEq κ] [Fintype H] in
/-- A function that returns nothing to remember. -/
theorem does_plain {α : Type} {a : Code H ι κ α} {l : Local}
    (ha : Does init x a ⟨.run, [], .none, rs⟩ fun _ t => t = ⟨.run, [], .none, rs⟩) (hl : Delivered l rs) :
    Does init x (do let _ ← a; return l) ⟨.run, [], .none, rs⟩ fun l t => ∃ rs', t = ⟨.run, [], .none, rs'⟩ ∧ Delivered l rs' := by
  apply does_seq ha
  exact fun _ => ⟨rs, rfl, hl⟩

theorem does_call (hall : ∀ q, q ∈ table) {l : Local} {c : Call κ} (hc : Call.enabled x c) {t : Token ι κ}
    (ht : idleToken x l t) : Does init x (Call.body table init rounds x l c) t (idleToken x) := by
  cases x with
  | sched h =>
    obtain ⟨rs, rfl⟩ := ht
    apply does_seq does_scheduler
    exact fun _ => ⟨rs, rfl⟩
  | proc p =>
    obtain ⟨rs, rfl, hl⟩ := ht
    cases c with
    | scheduler => cases hc
    | yield => exact does_plain (does_yield rfl) hl
    | kernel ops => exact does_syscall (does_plain (does_ops hc) hl)
    | kill pid => exact does_syscall (does_plain (does_kill rfl pid table) hl)
    | fork fail => exact does_syscall (does_plain (does_fork fail) hl)
    | wait dest =>
      apply does_syscall
      apply (does_wait hall dest rounds).bind
      intro r t ht
      exact hl.wait ht
    | exit ops status =>
      apply does_seq (does_intr (.inr rfl) true)
      intro _
      exact does_plain (does_exit hc hall status) hl

theorem keeps (hall : ∀ q, q ∈ table) :
    HartKeeps (client table init rounds) (Inv init : Machine H ι κ → _ → Prop) Allowed idleToken where
  call _ _ _ _ hc ht := does_call hall hc ht
  turn h m T hI := by
    refine ⟨hI.handOver.frame rfl rfl rfl rfl rfl, ?_, ⟨hI.ledger.balance, hI.ledger.frees, hI.ledger.reaped, hI.ledger.pid,
      hI.ledger.nextpid⟩⟩
    refine ⟨fun p => ?_, hI.family.live, hI.family.parent, hI.family.parented, hI.family.newborn, hI.family.heard⟩
    exact (hI.family.task p).mild (fun _ => .refl _) rfl (fun _ _ _ => rfl) fun _ ho => ⟨rfl, (hI.family.task p).locked ho⟩
  trap m T x irq hI hx hsie := by
    obtain ⟨mode, k, rs, hT, hstage, hk⟩ := hI.interruptible hx hsie
    rw [hT]
    exact does_kerneltrap irq hstage hk

/-! ### From boot -/

/-- The tokens at boot: every scheduler is about to enter its loop, no process has run. -/
def bootToken : Thread H ι → Token ι κ
  | .sched _ => ⟨.loop, [], .none, []⟩
  | .proc p => ⟨.gone, [.proc p], .none, []⟩

omit [Fintype H] in
theorem boot_inv (h : H) : Inv init (booted init h).shared (bootToken : Thread H ι → Token ι κ) := by
  refine ⟨⟨fun _ => .inl rfl, fun _ _ he => Thread.sched.inj he, fun _ _ => ?_, fun _ => List.nodup_nil, fun _ => rfl,
    fun _ _ => rfl, fun _ => .loop rfl rfl rfl, fun p => .gone rfl rfl (fun _ he => nomatch he) ?_⟩, ?_, ?_⟩
  · exact ⟨fun he => (nomatch he), fun he => (nomatch he)⟩
  · by_cases hp : p = init
    · simp [booted, hp]
    · simp [booted, hp]
  · refine ⟨fun _ => .none rfl, by simp [booted], fun _ _ hpar => (nomatch hpar), fun q hq hst => ?_,
      fun _ _ _ hpar => (nomatch hpar), fun _ _ _ _ hpar => (nomatch hpar)⟩
    simp [booted, hq] at hst
  · refine ⟨fun e => ?_, fun _ hr => (nomatch hr), fun _ => rfl, fun q => ?_, by simp [booted]⟩
    · have hleft : ¬ ((booted (H := H) (κ := κ) init h).shared.procs e.slot).leftBy e := by
        intro hl
        by_cases hq : e.slot = init
        · simp [booted, hq, Proc.leftBy] at hl
        · simp [booted, hq, Proc.leftBy] at hl
      rw [if_neg hleft]
      rfl
    · by_cases hq : q = init
      · simp [booted, hq]
      · simp [booted, hq]

omit [Fintype H] in
theorem boot_born : Does init (.proc p : Thread H ι) (do born p; return [] : Code H ι κ Local)
    (bootToken (.proc p : Thread H ι)) (idleToken (.proc p : Thread H ι)) := by
  apply does_act
  intro m T m' hI hx hT hf
  cases hf
  have hfresh : m.fresh p = true := hI.arrived_fresh hx hT
  have harrive := hI.arrive hx hT (.inr rfl) (fun c => c) (fun _ => ⟨rfl, rfl, rfl⟩) rfl
  rw [m.setCpu_id] at harrive
  refine ⟨_, harrive, ?_⟩
  simp only [hfresh, if_true]
  apply does_seq does_forkret
  intro _
  have hnone : Delivered [] [] := ⟨fun _ h => (by cases h), .nil⟩
  exact ⟨[], rfl, hnone⟩

theorem covered (hall : ∀ q, q ∈ table) (h₀ : H) {g : Config Unit Stop (Machine H ι κ) (Thread H ι) Local}
    (hg : HartReach (client table init rounds) (booted init h₀) g) :
    HartCovered (client table init rounds) (Inv init) Allowed idleToken g := by
  refine HartReach.sound (keeps hall) ⟨bootToken, boot_inv h₀, fun x => ?_⟩ hg
  cases x with
  | sched h => exact ⟨[], rfl⟩
  | proc p => exact boot_born

/-! ### Where processes run -/

omit [DecidableEq κ] [DecidableEq H] [DecidableEq ι] [Fintype H] in
/-- A process that a hart executes is RUNNING, or the hart holds its lock. -/
theorem HandOver.executed {m : Machine H ι κ} {T : Thread H ι → Token ι κ} (hI : HandOver m T) {h : H} {p : ι}
    (he : m.exec h = .proc p) : (m.procs p).state = .running ∨ m.locks (.proc p) = some h := by
  cases hI.proc p with
  | run _ _ _ state => exact .inl state
  | leaving _ _ _ _ held =>
    refine .inr ((hI.locks _ _).mpr ?_)
    rw [he]
    exact held
  | down _ _ state => exact .inl (state h he)
  | gone _ _ state => exact .inl (state h he)

omit [DecidableEq κ] [DecidableEq H] [DecidableEq ι] [Fintype H] in
/-- A process that is the current process of a hart is executed by it, or it is executed by
none and the hart's scheduler holds its lock. -/
theorem HandOver.current {m : Machine H ι κ} {T : Thread H ι → Token ι κ} (hI : HandOver m T) {h : H} {p : ι}
    (hp : (m.cpus h).proc = some p) :
    m.exec h = .proc p ∨ m.locks (.proc p) = some h ∧ ∀ h', m.exec h' ≠ .proc p := by
  have hheld : m.exec h = .sched h → (T (.sched h)).held = [.proc p] → m.locks (.proc p) = some h := by
    intro he hheld
    apply (hI.locks _ _).mpr
    rw [he, hheld]
    exact List.mem_singleton_self _
  cases hI.sched h with
  | loop _ _ cpu => exact nomatch cpu.symm.trans hp
  | chosen q _ exec held cpu _ only =>
    cases Option.some.inj (cpu.symm.trans hp)
    exact .inr ⟨hheld exec held, only⟩
  | away q _ held cpu back =>
    cases Option.some.inj (cpu.symm.trans hp)
    obtain he | ⟨he, hstate⟩ := back
    · exact .inl he
    · refine .inr ⟨hheld he held, fun h' he' => ?_⟩
      obtain hr | hl := hI.executed he'
      · exact hstate hr
      · cases Option.some.inj ((hheld he held).symm.trans hl)
        rw [he] at he'
        cases he'

/-- In every interleaving of the harts' schedulers with the processes, a process is the
current process of one hart at most, none when it waits to run with its lock free, and the
checks of `sched` do not fail. -/
theorem runs_on_one_hart (hall : ∀ q, q ∈ table) (h₀ : H) {g : Config Unit Stop (Machine H ι κ) (Thread H ι) Local}
    (hg : HartReach (client table init rounds) (booted init h₀) g) :
    (∀ p h h', (g.shared.cpus h).proc = some p → (g.shared.cpus h').proc = some p → h = h') ∧
    (∀ p, (g.shared.procs p).state = .runnable ∨ (g.shared.procs p).state = .sleeping →
      g.shared.locks (.proc p) = none → ∀ h, (g.shared.cpus h).proc ≠ some p) ∧
    ∀ x, g.thread x ≠ .stop (.panic "sched p->lock") ∧ g.thread x ≠ .stop (.panic "sched locks") ∧
      g.thread x ≠ .stop (.panic "sched running") ∧ g.thread x ≠ .stop (.panic "sched interruptible") := by
  obtain ⟨T, hI, hT⟩ := covered hall h₀ hg
  have hH := hI.handOver
  refine ⟨fun p h h' hp hp' => ?_, fun p hstate hfree h hp => ?_, fun x => ?_⟩
  · obtain he | ⟨hl, hnone⟩ := hH.current hp
    · obtain he' | ⟨_, hnone⟩ := hH.current hp'
      · exact hH.alone h h' (he.trans he'.symm)
      · exact absurd he (hnone h)
    · obtain he' | ⟨hl', _⟩ := hH.current hp'
      · exact absurd he' (hnone h')
      · exact Option.some.inj (hl.symm.trans hl')
  · obtain he | ⟨hl, _⟩ := hH.current hp
    · obtain hr | hl := hH.executed he
      · simp [hr] at hstate
      · exact nomatch hfree.symm.trans hl
    · exact nomatch hfree.symm.trans hl
  · have hallowed : ∀ e, g.thread x = .stop e → Allowed e := fun e he => HartCovered.stop hT he
    refine ⟨fun he => ?_, fun he => ?_, fun he => ?_, fun he => ?_⟩
    all_goals
      have := hallowed _ he
      simp [Allowed] at this

/-- Hart 0 boots process 0, which forks process 1, and hart 1 takes that up. -/
def forked : List (HartMove (Fin 2) (Thread (Fin 2) (Fin 2)) (Call Unit)) :=
  [.begin 0 (.sched 0) .scheduler, .acts 0 (.sched 0) 4, .acts 0 (.proc 0) 3, .begin 0 (.proc 0) (.fork none),
    .acts 0 (.proc 0) 17, .begin 1 (.sched 1) .scheduler, .acts 1 (.sched 1) 7]

theorem runs_on_one_hart_forked : ∃ g : Config Unit Stop (Machine (Fin 2) (Fin 2) Unit) (Thread (Fin 2) (Fin 2)) Local,
    HartReach (client [0, 1] 0 1) (booted 0 0) g ∧ (g.shared.cpus 0).proc = some 0 ∧ (g.shared.cpus 1).proc = some 1 ∧
      ∀ h, (g.shared.cpus h).proc = some 1 → h = 1 := by
  have hplay : ∃ g : Config Unit Stop (Machine (Fin 2) (Fin 2) Unit) (Thread (Fin 2) (Fin 2)) Local,
      HartReach (client [0, 1] 0 1) (booted 0 0) g ∧ (g.shared.cpus 0).proc = some 0 ∧ (g.shared.cpus 1).proc = some 1 :=
    HartReach.of_play forked (by decide +kernel)
  obtain ⟨g, hg, h0, h1⟩ := hplay
  exact ⟨g, hg, h0, h1, fun h hh => (runs_on_one_hart (by decide) 0 hg).1 1 h 1 hh h1⟩

/-! ### Exits and waits -/

/-- What an idle thread remembers. -/
def returned (g : Config Unit Stop (Machine H ι κ) (Thread H ι) Local) (x : Thread H ι) : Option Local :=
  match g.thread x with
  | .ret l => some l
  | _ => none

/-- In every interleaving of `fork`, `exit`, `wait` and `kill`:
(a) what `freeproc` gets is an unused slot or a zombie freed by its parent; every exit has left a
zombie or been freed, once; and the zombies that a process has freed are those whose pid and
status its successful waits have delivered;
(b) a `wait` whose status cannot be copied fails, and a zombie has a parent that can wait for it;
(c) nobody but `init` sleeps in `wait` while it has a zombie child;
(d) no hart executes what is freed. -/
theorem exit_wait (hall : ∀ q, q ∈ table) (h₀ : H) {g : Config Unit Stop (Machine H ι κ) (Thread H ι) Local}
    (hg : HartReach (client table init rounds) (booted init h₀) g) :
    ((∀ r ∈ g.shared.frees, r.state = .unused ∨ r.state = .zombie ∧ r.parent = some r.by') ∧
      (∀ e, g.shared.exits.count e =
        (g.shared.reaps.map Free.exit).count e + if (g.shared.procs e.slot).leftBy e then 1 else 0) ∧
      ∀ p l, g.thread (.proc p) = .ret l →
        List.Forall₂ Waited.Returns (l.filter fun r => r.ret ≠ -1) (g.shared.reapedBy p)) ∧
    ((∀ p l, g.thread (.proc p) = .ret l → ∀ r ∈ l, r.dest = .bad → r.ret = -1) ∧
      ∀ q, (g.shared.procs q).state = .zombie → ∃ p, (g.shared.procs q).parent = some p ∧
        (g.shared.procs p).state ≠ .unused ∧ (g.shared.procs p).state ≠ .zombie) ∧
    (∀ p, p ≠ init → g.shared.locks (.proc p) = none → (g.shared.procs p).awaits p →
      ∀ q, (g.shared.procs q).parent = some p → (g.shared.procs q).state ≠ .zombie) ∧
    ∀ r ∈ g.shared.frees, r.running = false := by
  obtain ⟨T, hI, hT⟩ := covered hall h₀ hg
  have hidle : ∀ p l, g.thread (.proc p) = .ret l → Delivered l (g.shared.reapedBy p) := by
    intro p l hl
    obtain ⟨rs, ht, hd⟩ := HartCovered.idle hT hl
    have := hI.ledger.reaped p
    rw [ht] at this
    rw [← this]
    exact hd
  refine ⟨⟨fun r hr => (hI.ledger.frees r hr).2, hI.ledger.balance, fun p l hl => (hidle p l hl).2⟩,
    ⟨fun p l hl => (hidle p l hl).1, fun q hq => ?_⟩, fun p hp _ haw q hpar => hI.family.heard p q hp haw hpar,
    fun r hr => (hI.ledger.frees r hr).1⟩
  have hqi : q ≠ init := by
    intro h
    rw [h] at hq
    exact hI.family.live.2 hq
  have hsome := hI.family.parented q hqi (by simp [hq])
  obtain ⟨p, hp⟩ := Option.ne_none_iff_exists'.mp hsome
  exact ⟨p, hp, hI.family.parent p q hp⟩

/-- Process 1 exits with status 7 and process 0 waits for it. -/
def reaped : List (HartMove (Fin 2) (Thread (Fin 2) (Fin 2)) (Call Unit)) :=
  forked ++ [.acts 1 (.proc 1) 3, .begin 1 (.proc 1) (.exit [] 7), .acts 1 (.proc 1) 14, .acts 1 (.sched 1) 2,
    .begin 0 (.proc 0) (.wait .good), .acts 0 (.proc 0) 9]

theorem exit_wait_reaped : ∃ g : Config Unit Stop (Machine (Fin 2) (Fin 2) Unit) (Thread (Fin 2) (Fin 2)) Local,
    HartReach (client [0, 1] 0 1) (booted 0 0) g ∧ returned g (.proc 0) = some [⟨.good, 2, some 7⟩] ∧
      g.shared.reapedBy 0 = [(2, 7)] ∧ ∀ r ∈ g.shared.frees, r.running = false := by
  have hplay : ∃ g : Config Unit Stop (Machine (Fin 2) (Fin 2) Unit) (Thread (Fin 2) (Fin 2)) Local,
      HartReach (client [0, 1] 0 1) (booted 0 0) g ∧ returned g (.proc 0) = some [⟨.good, 2, some 7⟩] ∧
        g.shared.reapedBy 0 = [(2, 7)] := HartReach.of_play reaped (by decide +kernel)
  obtain ⟨g, hg, hret, hreaped⟩ := hplay
  exact ⟨g, hg, hret, hreaped, (exit_wait (by decide) 0 hg).2.2.2⟩

end Farron.Harts
