import Farron.Proc.Runs
import Farron.Resumption.Conditions

/-! Whom `kill` kills (`kill_named`).

The code is that of `Farron.Proc.Code`, with marks on the sections that set `killed`: those of
`kill`, and that of `usertrap` for a process that did something wrong. `kill` does not look at
`state`. A free slot has the pid 0, or one that a `fork` without a trapframe has left in
it; who is next put into a slot that `kill` has met so is born killed. -/
namespace Farron.Harts
open Resumption
variable {H ι κ : Type} [DecidableEq H] [DecidableEq ι] [DecidableEq κ]

/-- `kill(pid)` looks at slot `q`; process `p` did something wrong. -/
inductive Mark (ι : Type)
  | plain
  | kill (pid : Int) (q : ι)
  | fault (p : ι)

abbrev Marked (H ι κ : Type) := Prog (Mark ι) Stop (Machine H ι κ)

def plain {α : Type} (k : Code H ι κ α) : Marked H ι κ α := k.relabel fun _ => .plain

/-- `kill`, with marks. -/
def killAt (pid : Int) : List ι → Marked H ι κ Int
  | [] => return -1
  | q :: rest => do
    plain (acquire (.proc q))
    .act (.kill pid q) (fun m => some (if (m.procs q).pid = pid then m.setProc q Proc.kill else m))
      fun m =>
        if (m.procs q).pid = pid then do
          plain (release (.proc q))
          return 0
        else do
          plain (release (.proc q))
          killAt pid rest

/-- `syscall`, with marks. -/
def syscallAt {α : Type} (k : Marked H ι κ α) : Marked H ι κ α := do
  plain (modify fun m => m.intr true)
  let a ← k
  plain usertrapret
  return a

section Procs
variable [Fintype H] (table : List ι) (init : ι) (rounds : Nat)

/-- `usertrap` with an unexpected `scause`; interrupts are off. Closing the files is `ops`. -/
def usertrapFault (p : ι) (ops : List (Op κ)) : Marked H ι κ Unit := do
  plain (modify fun m => m.intr false)
  .change (.fault p) fun m => m.setProc p fun x => { x with killed := true }
  let m ← .look .plain
  if (m.procs p).killed = true then plain (Harts.exit table init p ops (-1))
  else plain usertrapret

inductive KillCall (κ : Type)
  | call (c : Call κ)
  | fault (ops : List (Op κ))

def KillCall.enabled : Thread H ι → KillCall κ → Prop
  | x, .call c => Call.enabled x c
  | .sched _, .fault _ => False
  | .proc _, .fault ops => Op.disciplined [] ops

def KillCall.body (x : Thread H ι) (l : Local) : KillCall κ → Marked H ι κ Local
  | .call c =>
    match x, c with
    | .proc _, .kill pid => syscallAt do
      let _ ← killAt pid table
      return l
    | x, c => plain (Call.body table init rounds x l c)
  | .fault ops =>
    match x with
    | .sched _ => return l
    | .proc p => do
      usertrapFault table init p ops
      return l

def killClient : HartClient (Mark ι) Stop (Machine H ι κ) H (Thread H ι) (Irq κ) Local (KillCall κ) where
  enabled x _ c := KillCall.enabled x c
  body := KillCall.body table init rounds
  turn h m := { m with hart := h }
  runs x m := m.exec m.hart = x
  interruptible m := m.cpu.sie = true
  trap irq := plain (kerneltrap table irq)

end Procs

/-- As `booted`. -/
def killBooted (init : ι) (h : H) : Config (Mark ι) Stop (Machine H ι κ) (Thread H ι) Local :=
  ⟨(booted init h).shared, fun x => plain ((booted init h).thread x)⟩

/-- `kill` does not come to a free slot with the pid that it is given. -/
def Careful : Mark ι → Machine H ι κ → Prop
  | .kill pid q, m => (m.procs q).pid = pid → (m.procs q).state ≠ .unused
  | _, _ => True

instance : ∀ (l : Mark ι) (m : Machine H ι κ), Decidable (Careful l m)
  | .kill pid q, m => inferInstanceAs (Decidable ((m.procs q).pid = pid → (m.procs q).state ≠ .unused))
  | .plain, _ | .fault _, _ => isTrue trivial

/-- `kill(pid)` returns 0 if and only if there is a process with this pid, which it then kills; otherwise it
changes nothing. -/
def KillMeets (table : List ι) (pid : Int) (m : Machine H ι κ) : Prop :=
  ∃ r m', (kill pid table).run m = .done r m' ∧
    ((∃ q, (m.procs q).pid = pid ∧ (m.procs q).state ≠ .unused ∧ r = 0 ∧
        m'.procs = Function.update m.procs q (m.procs q).kill) ∨
      (∀ q, (m.procs q).pid = pid → (m.procs q).state = .unused) ∧ r = -1 ∧ m'.procs = m.procs)

/-! ### One `kill` -/

section Alone

omit [DecidableEq H] [DecidableEq ι] [DecidableEq κ] in
theorem plain_unmarked {α : Type} (k : Code H ι κ α) : (plain k).relabel (fun _ => ()) = k :=
  (Prog.relabel_relabel _ _ k).trans (Prog.relabel_id k)

/-- Without the marks it is `kill`. -/
theorem killAt_unmarked (pid : Int) (table : List ι) : (killAt pid table : Marked H ι κ Int).relabel (fun _ => ()) = kill pid table := by
  induction table with
  | nil => rfl
  | cons q rest ih =>
    unfold killAt kill
    rw [Prog.relabel_bind, plain_unmarked]
    congr 1
    funext _
    refine congrArg (Prog.act () _) (funext fun m => ?_)
    by_cases hpid : (m.procs q).pid = pid
    · simp only [hpid, if_true, Prog.relabel_bind, plain_unmarked]
      rfl
    · simp only [hpid, if_false, Prog.relabel_bind, plain_unmarked, ih]

omit [DecidableEq ι] [DecidableEq κ] in
theorem syscallAt_unmarked {α : Type} (k : Marked H ι κ α) :
    (syscallAt k).relabel (fun _ => ()) = syscall (k.relabel fun _ => ()) := by
  simp only [syscallAt, syscall, Prog.relabel_bind, plain_unmarked]
  rfl

theorem usertrapFault_unmarked [Fintype H] (table : List ι) (init p : ι) (ops : List (Op κ)) :
    (usertrapFault table init p ops : Marked H ι κ Unit).relabel (fun _ => ()) = (do
      modify fun m => m.intr false
      modify fun m => m.setProc p fun x => { x with killed := true }
      let m ← .look ()
      if (m.procs p).killed = true then Harts.exit table init p ops (-1) else usertrapret : Code H ι κ Unit) := by
  simp only [usertrapFault, Prog.relabel_bind, plain_unmarked, apply_ite (Prog.relabel fun _ : Mark ι => ())]
  rfl

variable {m : Machine H ι κ} {l : Lock ι κ}

theorem acquire_run (hfree : m.locks l = none) : (acquire l).run m = .done () (m.pushOff.setLock l (some m.hart)) := by
  have hnot : ¬ m.holding l := by
    unfold Machine.holding
    rw [hfree]
    exact fun h => by cases h
  simp only [acquire, Prog.run_act, hfree, if_true, hnot, if_false, Prog.run_ret]

theorem release_run (hhold : m.holding l) (hsie : m.cpu.sie = false) (hnoff : 1 ≤ m.cpu.noff) :
    (release l).run m = .done () (m.setLock l none).popOff := by
  simp only [release, Prog.run_act, hhold, if_true, not_true_eq_false, if_false, hsie, Bool.false_eq_true, Nat.not_lt.mpr hnoff,
    Prog.run_ret]

/-- A section on a process whose lock is taken for it. -/
theorem locked_run {q : ι} (hfree : m.locks (.proc q) = none) (f : Proc ι κ → Proc ι κ) :
    ∃ m', m'.procs = (m.setProc q f).procs ∧ m'.locks = m.locks ∧
      (release (.proc q)).run ((m.pushOff.setLock (.proc q) (some m.hart)).setProc q f) = .done () m' := by
  have hhold : ((m.pushOff.setLock (.proc q) (some m.hart)).setProc q f).holding (.proc q) := Function.update_self ..
  have hcpu : ((m.pushOff.setLock (.proc q) (some m.hart)).setProc q f).cpu =
      { m.cpu with intena := if m.cpu.noff = 0 then m.cpu.sie else m.cpu.intena, noff := m.cpu.noff + 1, sie := false } :=
    Function.update_self ..
  refine ⟨_, ?_, ?_, release_run hhold (by rw [hcpu]) (by rw [hcpu]; exact Nat.le_add_left _ _)⟩
  · rfl
  · show Function.update (Function.update m.locks (.proc q) (some m.hart)) (.proc q) none = m.locks
    rw [Function.update_idem, ← hfree, Function.update_eq_self]

/-- `kill` takes the first slot with the pid. -/
theorem kill_run (pid : Int) (table : List ι) (hfree : ∀ q, m.locks (.proc q) = none) :
    ∃ m', (kill pid table).run m = .done (if (table.find? fun q => (m.procs q).pid = pid).isSome = true then 0 else -1) m' ∧
      m'.procs = ((table.find? fun q => (m.procs q).pid = pid).elim m fun q => m.setProc q Proc.kill).procs := by
  induction table generalizing m with
  | nil => exact ⟨m, rfl, rfl⟩
  | cons q rest ih =>
    unfold kill
    rw [Prog.run_bind_done (acquire_run (hfree q)), Prog.run_act]
    have hsame : ((m.pushOff.setLock (.proc q) (some m.hart)).procs q).pid = (m.procs q).pid := rfl
    by_cases hpid : (m.procs q).pid = pid
    · obtain ⟨m', hprocs, -, hrun⟩ := locked_run (hfree q) Proc.kill
      rw [List.find?_cons_of_pos (by simpa using hpid)]
      refine ⟨m', ?_, hprocs⟩
      simp only [hsame, hpid, if_true, Prog.run_bind_done hrun]
      rfl
    · obtain ⟨m', hprocs, hlocks, hrun⟩ := locked_run (hfree q) id
      have hid : (m.setProc q id).procs = m.procs := Function.update_eq_self ..
      have hidle : (m.pushOff.setLock (.proc q) (some m.hart)).setProc q id = m.pushOff.setLock (.proc q) (some m.hart) := by
        unfold Machine.setProc
        rw [id, Function.update_eq_self]
      rw [hidle] at hrun
      rw [hid] at hprocs
      rw [List.find?_cons_of_neg (by simpa using hpid)]
      obtain ⟨m'', hrest, hend⟩ := ih (m := m') fun r => by rw [hlocks]; exact hfree r
      rw [hprocs] at hrest hend
      refine ⟨m'', ?_, ?_⟩
      · simp only [hsame, hpid, if_false, Prog.run_bind_done hrun]
        exact hrest
      · rw [hend]
        cases rest.find? fun q => decide ((m.procs q).pid = pid) with
        | none => exact hprocs
        | some r =>
          show Function.update m'.procs r _ = Function.update m.procs r _
          rw [hprocs]

/-- `kill` does what it should if and only if the first slot with the pid is not free, where no free slot is
killed. -/
theorem kill_meets_iff {table : List ι} (hall : ∀ q, q ∈ table) (hfree : ∀ q, m.locks (.proc q) = none)
    (hclean : ∀ q, (m.procs q).state = .unused → (m.procs q).killed = false) (pid : Int) :
    KillMeets table pid m ↔ ∀ q, (table.find? fun q => (m.procs q).pid = pid) = some q → (m.procs q).state ≠ .unused := by
  obtain ⟨m', hrun, hprocs⟩ := kill_run pid table hfree
  cases hfind : table.find? fun q => decide ((m.procs q).pid = pid) with
  | none =>
    rw [hfind] at hrun hprocs
    refine ⟨fun _ q hq => (by cases hq), fun _ => ⟨-1, m', hrun, .inr ⟨fun q hq => ?_, rfl, hprocs⟩⟩⟩
    have hno := List.find?_eq_none.mp hfind q (hall q)
    exact absurd (decide_eq_true hq) hno
  | some u =>
    rw [hfind] at hrun hprocs
    have hpid := List.find?_some hfind
    have hpid : (m.procs u).pid = pid := of_decide_eq_true hpid
    constructor
    · rintro ⟨r, m'', hrun', hmeets⟩ q hq hu
      cases hq
      rw [hrun] at hrun'
      cases hrun'
      have hself : (m'.procs u).killed = true := by
        rw [hprocs]
        show (Function.update m.procs u (m.procs u).kill u).killed = true
        rw [Function.update_self]
        rfl
      rcases hmeets with ⟨q, -, hq, -, hm⟩ | ⟨-, hr, -⟩
      · have hne : u ≠ q := fun he => hq (he ▸ hu)
        rw [hm, Function.update_of_ne hne, hclean u hu] at hself
        cases hself
      · cases hr
    · exact fun h => ⟨0, m', hrun, .inl ⟨u, hpid, h u rfl, rfl, hprocs⟩⟩

end Alone

/-! ### Who sets `killed` -/

/-- Nobody is killed, and a slot that becomes free is not. -/
def Tame (m m' : Machine H ι κ) : Prop :=
  ∀ q, ((m'.procs q).killed = true → (m.procs q).killed = true) ∧
    ((m'.procs q).state = .unused → (m.procs q).state = .unused ∨ (m'.procs q).killed = false)

namespace Tame
variable {m m' m'' : Machine H ι κ}

omit [DecidableEq H] [DecidableEq ι] [DecidableEq κ] in
theorem same (h : m'.procs = m.procs) : Tame m m' := by
  intro q
  rw [h]
  exact ⟨id, .inl⟩

omit [DecidableEq H] [DecidableEq ι] [DecidableEq κ] in
theorem trans (h : Tame m m') (h' : Tame m' m'') : Tame m m'' := by
  refine fun q => ⟨fun hk => (h q).1 ((h' q).1 hk), fun hs => ?_⟩
  rcases (h' q).2 hs with hs | hk
  · rcases (h q).2 hs with hs | hk
    · exact .inl hs
    · refine .inr (Bool.eq_false_iff.mpr fun hk' => ?_)
      rw [(h' q).1 hk'] at hk
      cases hk
  · exact .inr hk

omit [DecidableEq H] [DecidableEq κ] in
theorem setProc {q : ι} {f : Proc ι κ → Proc ι κ} (hk : (f (m.procs q)).killed = true → (m.procs q).killed = true)
    (hs : (f (m.procs q)).state = .unused → (m.procs q).state = .unused ∨ (f (m.procs q)).killed = false) :
    Tame m (m.setProc q f) := by
  intro r
  by_cases hr : r = q
  · subst hr
    have hself : (m.setProc r f).procs r = f (m.procs r) := Function.update_self ..
    rw [hself]
    exact ⟨hk, hs⟩
  · have hother : (m.setProc q f).procs r = m.procs r := Function.update_of_ne hr ..
    rw [hother]
    exact ⟨id, .inl⟩

omit [DecidableEq H] [DecidableEq κ] in
theorem wake (q : ι) (c : Chan ι κ) [DecidableEq κ] : Tame m (m.setProc q (Proc.wake c)) := by
  apply setProc
  · unfold Proc.wake
    split_ifs
    · exact id
    · exact id
  · unfold Proc.wake
    split_ifs
    · exact fun h => by cases h
    · exact .inl

end Tame

/-- All sections of the program are tame. -/
abbrev TameCode {α : Type} (k : Code H ι κ α) : Prop := k.Within (fun _ => Tame) fun _ => True

section Codes
variable {α : Type}

omit [DecidableEq H] [DecidableEq ι] [DecidableEq κ] in
theorem tame_modify {f : Machine H ι κ → Machine H ι κ} (h : ∀ m, Tame m (f m)) : TameCode (modify f) := .change _ _ h

omit [DecidableEq H] [DecidableEq ι] [DecidableEq κ] in
theorem tame_look : TameCode (.look () : Code H ι κ (Machine H ι κ)) := .look _ _ (fun _ => .same rfl) fun _ => trivial

theorem tame_acquire (l : Lock ι κ) : TameCode (acquire l : Code H ι κ Unit) := by
  refine ⟨fun m m' hf => ?_, fun m => .ite (fun _ => trivial) fun _ => trivial⟩
  simp only at hf
  split_ifs at hf
  · cases hf
    exact .same rfl
  · cases hf
    exact .same rfl

theorem tame_release (l : Lock ι κ) : TameCode (release l : Code H ι κ Unit) := by
  refine ⟨fun m m' hf => ?_, fun m => .ite (fun _ => trivial) fun _ => .ite (fun _ => trivial) fun _ => .ite (fun _ => trivial)
    fun _ => trivial⟩
  cases hf
  split_ifs
  · exact .same rfl
  · exact .same rfl

omit [DecidableEq κ] in
theorem tame_sched (p : ι) : TameCode (sched p : Code H ι κ Bool) := by
  refine ⟨fun m m' hf => ?_, fun m => .ite (fun _ => trivial) fun _ => .ite (fun _ => trivial) fun _ => .ite (fun _ => trivial)
    fun _ => .ite (fun _ => trivial) fun _ => ⟨fun m' m'' hf => ?_, fun _ => trivial⟩⟩
  · cases hf
    split_ifs
    · exact .same rfl
    · exact .same rfl
  · cases hf
    split_ifs
    · exact .same rfl
    · exact .same rfl

omit [DecidableEq H] [DecidableEq ι] [DecidableEq κ] in
theorem tame_resumed {k : Code H ι κ α} (hk : TameCode k) (fresh : Bool) : TameCode (resumed k fresh) :=
  .ite (fun _ => trivial) fun _ => hk

omit [DecidableEq H] [DecidableEq κ] in
/-- A section that frees no process and kills none. -/
theorem tame_setState (p : ι) (f : Proc ι κ → Proc ι κ) (hk : ∀ x, (f x).killed = x.killed)
    (hs : ∀ x, (f x).state = .unused → x.state = .unused) : TameCode (modify fun m : Machine H ι κ => m.setProc p f) :=
  tame_modify fun _ => .setProc (fun h => (hk _).symm.trans h) fun h => .inl (hs _ h)

theorem tame_yield (p : ι) : TameCode (yield p : Code H ι κ Unit) := by
  refine .bind (tame_acquire _) fun _ => .bind ?_ fun _ => .bind (tame_sched p) fun _ => tame_resumed (tame_release _) _
  exact tame_setState p _ (fun _ => rfl) fun _ h => by cases h

theorem tame_sleep (p : ι) (chan : Chan ι κ) (lk : Lock ι κ) : TameCode (Harts.sleep p chan lk : Code H ι κ Unit) := by
  have hpause : TameCode (modify fun m : Machine H ι κ => m.setProc p fun x => { x with chan := some chan, state := .sleeping }) :=
    tame_setState p _ (fun _ => rfl) fun _ h => by cases h
  have hback : TameCode (modify fun m : Machine H ι κ => m.setProc p fun x => { x with chan := none }) :=
    tame_setState p _ (fun _ => rfl) fun _ h => h
  refine .ite (fun _ => ?_) fun _ => ?_
  · exact .bind hpause fun _ => .bind (tame_sched p) fun _ => tame_resumed hback _
  · refine .bind (tame_acquire _) fun _ => .bind (tame_release _) fun _ => .bind hpause fun _ => .bind (tame_sched p) fun _ =>
      tame_resumed ?_ _
    exact .bind hback fun _ => .bind (tame_release _) fun _ => tame_acquire _

theorem tame_wakeup (chan : Chan ι κ) (table : List ι) : TameCode (Harts.wakeup chan table : Code H ι κ Unit) := by
  induction table with
  | nil => trivial
  | cons q rest ih =>
    exact .bind (tame_acquire _) fun _ => .bind (tame_modify fun m => .wake q chan) fun _ => .bind (tame_release _) fun _ => ih

theorem tame_wakeup1 (q : ι) : TameCode (wakeup1 q : Code H ι κ Unit) := by
  refine ⟨fun m m' hf => ?_, fun m => .ite (fun _ => trivial) fun _ => trivial⟩
  cases hf
  split_ifs
  · exact .wake q _
  · exact .same rfl

theorem tame_ops (table : List ι) (p : ι) (ops : List (Op κ)) : TameCode (Op.run table p ops : Code H ι κ Unit) := by
  induction ops with
  | nil => trivial
  | cons op ops ih =>
    cases op with
    | lock k => exact .bind (tame_acquire _) fun _ => ih
    | unlock k => exact .bind (tame_release _) fun _ => ih
    | sleep c k => exact .bind (tame_sleep p _ _) fun _ => ih
    | wakeup c => exact .bind (tame_wakeup _ table) fun _ => ih

theorem tame_allocpid : TameCode (allocpid : Code H ι κ Int) :=
  .bind (tame_acquire _) fun _ => .bind tame_look fun _ => .bind (tame_modify fun _ => .same rfl) fun _ =>
    .bind (tame_release _) fun _ => trivial

variable [Fintype H]

omit [DecidableEq κ] in
theorem tame_freeproc (p q : ι) : TameCode (modify fun m : Machine H ι κ => m.freeproc p q) := by
  refine tame_modify fun m => ?_
  have hset : Tame m (m.setProc q fun _ => ⟨.unused, none, none, false, 0, 0⟩) := .setProc (fun h => by cases h) fun _ => .inr rfl
  exact hset.trans (.same rfl)

theorem tame_allocate (p : ι) (fail : Option Failure) (q : ι) : TameCode (allocate p fail q : Code H ι κ (Option ι)) := by
  refine .bind tame_allocpid fun pid => .bind (tame_setState q _ (fun _ => rfl) fun _ h => h) fun _ => ?_
  have hmake : TameCode (do
      modify fun m : Machine H ι κ => { m with fresh := Function.update m.fresh q true }
      return some q : Code H ι κ (Option ι)) := .bind (tame_modify fun _ => .same rfl) fun _ => trivial
  cases fail with
  | none => exact hmake
  | some f =>
    cases f with
    | trapframe => exact .bind (tame_release _) fun _ => trivial
    | tables => exact .bind (tame_freeproc p q) fun _ => .bind (tame_release _) fun _ => trivial
    | copy => exact hmake

theorem tame_allocproc (p : ι) (fail : Option Failure) (table : List ι) :
    TameCode (allocproc p fail table : Code H ι κ (Option ι)) := by
  induction table with
  | nil => trivial
  | cons q rest ih =>
    exact .bind (tame_acquire _) fun _ => .bind tame_look fun _ => .ite (fun _ => tame_allocate p fail q) fun _ =>
      .bind (tame_release _) fun _ => ih

theorem tame_fork (table : List ι) (p : ι) (fail : Option Failure) : TameCode (Harts.fork table p fail : Code H ι κ Int) := by
  refine .bind (tame_allocproc p fail table) fun r => ?_
  cases r with
  | none => trivial
  | some q =>
    refine .ite (fun _ => .bind (tame_freeproc p q) fun _ => .bind (tame_release _) fun _ => trivial) fun _ => ?_
    refine .bind (tame_setState q _ (fun _ => rfl) fun _ h => h) fun _ => .bind tame_look fun _ => .bind ?_ fun _ =>
      .bind (tame_release _) fun _ => trivial
    exact tame_setState q _ (fun _ => rfl) fun _ h => by cases h

omit [DecidableEq ι] [DecidableEq κ] [Fintype H] in
theorem tame_intr (on : Bool) : TameCode (modify fun m : Machine H ι κ => m.intr on) := tame_modify fun _ => .same rfl

omit [Fintype H] in
theorem tame_forkret (p : ι) : TameCode (forkret p : Code H ι κ Unit) := .bind (tame_release _) fun _ => tame_intr true

omit [Fintype H] in
theorem tame_reparent (init p : ι) (table : List ι) : TameCode (reparent init p table : Code H ι κ Unit) := by
  induction table with
  | nil => trivial
  | cons q rest ih =>
    refine .bind tame_look fun _ => .ite (fun _ => ?_) fun _ => ih
    refine .bind (tame_acquire _) fun _ => .bind ?_ fun _ => .bind (tame_release _) fun _ => ih
    exact tame_setState q _ (fun _ => rfl) fun _ h => h

omit [Fintype H] in
theorem tame_die (p parent : ι) (status : Int) : TameCode (die p parent status : Code H ι κ Unit) := by
  refine ⟨fun m m' hf => ?_, fun m => .ite (fun _ => trivial) fun _ => trivial⟩
  cases hf
  split_ifs
  · refine .trans (.wake parent (.proc parent)) (.trans ?_ (.same rfl))
    refine .setProc (q := p) (f := fun x => { x with xstate := status, state := .zombie }) id ?_
    exact fun h => by cases h
  · exact .same rfl

omit [Fintype H] in
theorem tame_exit (table : List ι) (init p : ι) (ops : List (Op κ)) (status : Int) :
    TameCode (Harts.exit table init p ops status : Code H ι κ Unit) := by
  refine .ite (fun _ => trivial) fun _ => ?_
  refine .bind (tame_ops table p ops) fun _ => .bind (tame_acquire _) fun _ => .bind (tame_wakeup1 init) fun _ =>
    .bind (tame_release _) fun _ => .bind (tame_acquire _) fun _ => .bind tame_look fun m => .bind (tame_release _) fun _ => ?_
  cases (m.procs p).parent with
  | none => trivial
  | some parent =>
    refine .bind (tame_acquire _) fun _ => .bind (tame_acquire _) fun _ => .bind (tame_reparent init p table) fun _ =>
      .bind (tame_die p parent status) fun _ => .bind (tame_release _) fun _ => .bind (tame_sched p) fun _ =>
      .ite (fun _ => tame_forkret p) fun _ => trivial

theorem tame_waitScan (p : ι) (dest : Dest) (table : List ι) (havekids : Bool) :
    TameCode (waitScan p dest table havekids : Code H ι κ (Waited ⊕ Bool)) := by
  induction table generalizing havekids with
  | nil => trivial
  | cons q rest ih =>
    refine .bind tame_look fun _ => .ite (fun _ => .bind (tame_acquire _) fun _ => ?_) fun _ => ih havekids
    refine ⟨fun m m' hf => ?_, fun m => .ite (fun _ => ?_) fun _ => .bind (tame_release _) fun _ => ih true⟩
    · cases hf
      split_ifs
      · exact (tame_freeproc p q).1 m _ rfl
      · exact .same rfl
    · exact .bind (tame_release _) fun _ => .bind (tame_release _) fun _ => trivial

theorem tame_wait (table : List ι) (rounds : Nat) (p : ι) (dest : Dest) :
    TameCode (Harts.wait table rounds p dest : Code H ι κ Waited) := by
  refine .bind (tame_acquire _) fun _ => ?_
  induction rounds with
  | zero => trivial
  | succ n ih =>
    refine .bind (tame_waitScan p dest table false) fun r => ?_
    cases r with
    | inl r => trivial
    | inr havekids =>
      exact .bind tame_look fun _ => .ite (fun _ => .bind (tame_release _) fun _ => trivial) fun _ =>
        .bind (tame_sleep p _ _) fun _ => ih

omit [Fintype H] in
theorem tame_schedule (table : List ι) : TameCode (schedule table : Code H ι κ Unit) := by
  induction table with
  | nil => trivial
  | cons q rest ih =>
    refine .bind (tame_acquire _) fun _ => ⟨fun m m' hf => ?_, fun m => .ite (fun _ => ?_) fun _ => .bind (tame_release _) fun _ => ih⟩
    · cases hf
      split_ifs
      · refine .trans (.setProc (q := q) (f := fun x => { x with state := .running }) id ?_) (.same rfl)
        exact fun h => by cases h
      · exact .same rfl
    · exact .bind (tame_modify fun _ => .same rfl) fun _ => .bind (tame_modify fun _ => .same rfl) fun _ =>
        .bind (tame_release _) fun _ => ih

omit [Fintype H] in
theorem tame_kerneltrap (table : List ι) (irq : Irq κ) : TameCode (kerneltrap table irq : Code H ι κ Unit) := by
  cases irq with
  | timer =>
    refine ⟨fun m m' hf => ?_, fun m => ?_⟩
    · cases hf
      exact .same rfl
    · cases hproc : m.cpu.proc with
      | none =>
        simp only [hproc]
        exact tame_intr true
      | some q =>
        simp only [hproc]
        exact .ite (fun _ => .bind (tame_yield q) fun _ => tame_intr true) fun _ => tame_intr true
  | device c => exact .bind (tame_intr false) fun _ => .bind (tame_wakeup _ table) fun _ => tame_intr true

end Codes

/-! ### Runs -/

section Runs
variable [Fintype H] {table : List ι} {init : ι} {rounds : Nat}

/-- Who is killed by a section of thread `x`: a process that a `kill` names, or the thread itself; and a slot that
becomes free is not killed. -/
def Blamed (x : Thread H ι) (l : Mark ι) (m m' : Machine H ι κ) : Prop :=
  ∀ q, ((m'.procs q).killed = true → (m.procs q).killed = true ∨ l = .kill (m.procs q).pid q ∨ l = .fault q ∧ x = .proc q) ∧
    ((m'.procs q).state = .unused → (m.procs q).state = .unused ∨ (m'.procs q).killed = false)

omit [DecidableEq H] [DecidableEq ι] [DecidableEq κ] [Fintype H] in
theorem Tame.blamed {m m' : Machine H ι κ} (h : Tame m m') (x : Thread H ι) (l : Mark ι) : Blamed x l m m' :=
  fun q => ⟨fun hk => .inl ((h q).1 hk), (h q).2⟩

omit [DecidableEq H] [DecidableEq ι] [DecidableEq κ] [Fintype H] in
theorem blamed_plain {α : Type} {k : Code H ι κ α} (h : TameCode k) (x : Thread H ι) :
    (plain k).Within (Blamed x) fun _ => True :=
  Prog.Within.relabel (h.mono fun _ _ _ ht => ht.blamed x .plain)

omit [Fintype H] in
theorem blamed_killAt (pid : Int) (table : List ι) (x : Thread H ι) :
    (killAt pid table : Marked H ι κ Int).Within (Blamed x) fun _ => True := by
  induction table with
  | nil => trivial
  | cons q rest ih =>
    have hrelease : (plain (release (.proc q)) : Marked H ι κ Unit).Within (Blamed x) fun _ => True :=
      blamed_plain (tame_release _) x
    refine .bind (blamed_plain (tame_acquire _) x) fun _ => ⟨fun m m' hf => ?_, fun m => .ite (fun _ => .bind hrelease fun _ => trivial)
      fun _ => .bind hrelease fun _ => ih⟩
    cases hf
    by_cases hpid : (m.procs q).pid = pid
    · rw [if_pos hpid]
      intro r
      by_cases hr : r = q
      · subst hr
        have hself : (m.setProc r Proc.kill).procs r = (m.procs r).kill := Function.update_self ..
        rw [hself]
        refine ⟨fun _ => .inr (.inl (by rw [hpid])), fun hs => .inl ?_⟩
        have hs : (if (m.procs r).state = .sleeping then .runnable else (m.procs r).state) = ProcState.unused := hs
        split_ifs at hs
        exact hs
      · have hother : (m.setProc q Proc.kill).procs r = m.procs r := Function.update_of_ne hr ..
        rw [hother]
        exact ⟨.inl, .inl⟩
    · rw [if_neg hpid]
      exact (Tame.same rfl).blamed x _

omit [Fintype H] in
theorem blamed_fault (p : ι) (ops : List (Op κ)) :
    (usertrapFault table init p ops : Marked H ι κ Unit).Within (Blamed (.proc p)) fun _ => True := by
  refine .bind (blamed_plain (tame_intr false) _) fun _ => .bind (.change _ _ fun m r => ?_) fun _ =>
    .bind (.look _ _ (fun m => (Tame.same rfl).blamed _ _) fun _ => trivial) fun m =>
    .ite (fun _ => blamed_plain (tame_exit table init p ops (-1)) _) fun _ => blamed_plain (tame_intr true) _
  by_cases hr : r = p
  · subst hr
    have hself : (m.setProc r fun x => { x with killed := true }).procs r = { m.procs r with killed := true } :=
      Function.update_self ..
    rw [hself]
    exact ⟨fun _ => .inr (.inr ⟨rfl, rfl⟩), .inl⟩
  · have hother : (m.setProc p fun x => { x with killed := true }).procs r = m.procs r := Function.update_of_ne hr ..
    rw [hother]
    exact ⟨.inl, .inl⟩

theorem tame_call (x : Thread H ι) (l : Local) (c : Call κ) (hc : ∀ p pid, x = .proc p → c ≠ .kill pid) :
    TameCode (Call.body table init rounds x l c) := by
  have hsys : ∀ {α : Type} {k : Code H ι κ α}, TameCode k → TameCode (syscall k) := fun {α k} hk =>
    .bind (tame_intr true) fun _ => .bind hk fun _ => .bind (tame_intr true) fun _ => trivial
  cases x with
  | sched h => exact .bind (.bind (tame_intr true) fun _ => tame_schedule table) fun _ => trivial
  | proc p =>
    cases c with
    | scheduler => trivial
    | yield => exact .bind (tame_yield p) fun _ => trivial
    | kernel ops => exact hsys (.bind (tame_ops table p ops) fun _ => trivial)
    | kill pid => exact absurd rfl (hc p pid rfl)
    | fork fail => exact hsys (.bind (tame_fork table p fail) fun _ => trivial)
    | wait dest => exact hsys (.bind (tame_wait table rounds p dest) fun _ => trivial)
    | exit ops status => exact .bind (tame_intr true) fun _ => .bind (tame_exit table init p ops status) fun _ => trivial

theorem blamed_body (x : Thread H ι) (l : Local) (c : KillCall κ) :
    (c.body table init rounds x l).Within (Blamed x) fun _ => True := by
  cases c with
  | call c =>
    cases x with
    | sched h => exact blamed_plain (tame_call _ l c fun p pid h => by cases h) _
    | proc p =>
      cases c with
      | kill pid =>
        exact .bind (blamed_plain (tame_intr true) _) fun _ => .bind (.bind (blamed_killAt pid table _) fun _ => trivial) fun _ =>
          .bind (blamed_plain (tame_intr true) _) fun _ => trivial
      | _ => exact blamed_plain (tame_call _ l _ fun _ _ _ h => by cases h) _
  | fault ops =>
    cases x with
    | sched h => trivial
    | proc p => exact .bind (blamed_fault p ops) fun _ => trivial

omit [DecidableEq κ] [Fintype H] in
/-- The invariant does not read `killed`. -/
theorem Inv.setKilled {m : Machine H ι κ} {T : Thread H ι → Token ι κ} (h : Inv init m T) (p : ι) :
    Inv init (m.setProc p fun x => { x with killed := true }) T := by
  have hone : ∀ q, ((m.setProc p fun x => { x with killed := true }).procs q).state = (m.procs q).state ∧
      ((m.setProc p fun x => { x with killed := true }).procs q).chan = (m.procs q).chan := by
    intro q
    by_cases hq : q = p
    · subst hq
      have hself : (m.setProc q fun x => { x with killed := true }).procs q = { m.procs q with killed := true } :=
        Function.update_self ..
      rw [hself]
      exact ⟨rfl, rfl⟩
    · have hother : (m.setProc p fun x => { x with killed := true }).procs q = m.procs q := Function.update_of_ne hq ..
      rw [hother]
      exact ⟨rfl, rfl⟩
  have hmild : ∀ q, Mild (m.procs q) ((m.setProc p fun x => { x with killed := true }).procs q) :=
    .setProc ⟨⟨Iff.rfl, fun _ => ⟨rfl, rfl⟩, id⟩, rfl, Iff.rfl⟩
  have hI := h.handOver
  have hawaits : ∀ q r, ((m.setProc p fun x => { x with killed := true }).procs q).awaits r → (m.procs q).awaits r := by
    intro q r ha
    exact ⟨(hone q).1.symm.trans ha.1, (hone q).2.symm.trans ha.2⟩
  refine ⟨⟨hI.exec, hI.alone, hI.locks, hI.nodup, hI.noff, hI.sie, fun h => (hI.sched h).of_eq rfl rfl fun q _ _ => (hone q).1,
    fun q => (hI.proc q).of_eq rfl (hone q).1 rfl⟩, ?_, ?_⟩
  · have hF := h.family.mild (x := .proc p) (t := T (.proc p)) hmild (h.family.heard_mild hmild fun q => hawaits q q)
      (fun _ _ _ _ _ => rfl) (fun q hq => ?_) fun _ hk => hk
    · rw [Function.update_eq_self] at hF
      exact hF
    · cases hq
      exact (h.family.task p).mild hmild rfl (fun _ _ _ => rfl) fun o ho => ⟨rfl, (h.family.task p).locked ho⟩
  · have hL := h.ledger.settled (x := .proc p) (t := T (.proc p)) (fun q => (hmild q).toSettled) rfl rfl h.ledger.nextpid rfl
    rw [Function.update_eq_self] at hL
    exact hL

/-- The triple of a marked program, as of the program without marks. -/
abbrev DoesMarked (init : ι) (x : Thread H ι) {α : Type} (k : Marked H ι κ α) (t : Token ι κ)
    (Q : α → Token ι κ → Prop) : Prop :=
  Triple (Inv init) (fun _ m => m.exec m.hart = x) (fun _ _ => True) Allowed x k t Q

omit [DecidableEq κ] [Fintype H] in
theorem does_lifted {x : Thread H ι} {α : Type} {k : Code H ι κ α} {t : Token ι κ} {Q : α → Token ι κ → Prop}
    (h : Does init x k t Q) : DoesMarked init x (plain k) t Q :=
  (Triple.relabel_iff _ k).mpr h

omit [DecidableEq κ] [Fintype H] in
theorem does_unmarked {x : Thread H ι} {α : Type} {k : Marked H ι κ α} {t : Token ι κ} {Q : α → Token ι κ → Prop}
    (h : Does init x (k.relabel fun _ => ()) t Q) : DoesMarked init x k t Q :=
  (Triple.relabel_iff (fun _ => ()) k).mp h

theorem does_fault (hall : ∀ q, q ∈ table) {p : ι} {ops : List (Op κ)} (hops : Op.disciplined [] ops) {rs : List (Int × Int)} :
    DoesMarked init (.proc p : Thread H ι) (usertrapFault table init p ops) ⟨.run, [], .none, rs⟩
      fun _ t => t = ⟨.run, [], .none, rs⟩ := by
  apply does_unmarked
  rw [usertrapFault_unmarked]
  have hset : Does init (.proc p : Thread H ι) (modify fun m : Machine H ι κ => m.setProc p fun x => { x with killed := true })
      ⟨.run, [], .none, rs⟩ fun _ t => t = ⟨.run, [], .none, rs⟩ := by
    apply does_modify
    intro m T hI hx hT
    rw [← hT, Function.update_eq_self]
    exact hI.setKilled p
  refine does_seq (does_intr (.inr rfl) false) fun _ => does_seq hset fun _ => does_glance fun m T _ _ _ => ?_
  by_cases hk : (m.procs p).killed = true
  · simp only [hk, if_true]
    exact does_exit hops hall (-1)
  · simp only [hk, Bool.false_eq_true, if_false]
    exact does_intr (.inr rfl) true

theorem does_killCall (hall : ∀ q, q ∈ table) {x : Thread H ι} {l : Local} {c : KillCall κ} (hc : KillCall.enabled x c)
    {t : Token ι κ} (ht : idleToken x l t) : DoesMarked init x (c.body table init rounds x l) t (idleToken x) := by
  cases c with
  | call c =>
    have hcall : Does init x (Call.body table init rounds x l c) t (idleToken x) := does_call hall hc ht
    cases x with
    | sched h => exact does_lifted hcall
    | proc p =>
      cases c with
      | kill pid =>
        apply does_unmarked
        show Does init (.proc p : Thread H ι) ((syscallAt (killAt pid table >>= fun _ => .ret l)).relabel _) t _
        rw [syscallAt_unmarked, Prog.relabel_bind, killAt_unmarked]
        exact hcall
      | _ => exact does_lifted hcall
  | fault ops =>
    cases x with
    | sched h => cases hc
    | proc p =>
      obtain ⟨rs, rfl, hl⟩ := ht
      exact Triple.bind (does_fault hall hc) fun _ t ht => ⟨rs, ht, hl⟩

theorem kill_keeps (hall : ∀ q, q ∈ table) :
    HartKeeps (killClient table init rounds) (Inv init : Machine H ι κ → _ → Prop) Allowed idleToken where
  call _ _ _ _ hc ht := does_killCall hall hc ht
  turn :=
    have h : HartKeeps (client table init rounds) (Inv init : Machine H ι κ → _ → Prop) Allowed idleToken := keeps hall
    h.turn
  trap m T x irq hI hx hsie :=
    have h : HartKeeps (client table init rounds) (Inv init : Machine H ι κ → _ → Prop) Allowed idleToken := keeps hall
    does_lifted (h.trap m T x irq hI hx hsie)

/-- A run in which every `kill` is careful. -/
abbrev CarefulRun (table : List ι) (init : ι) (rounds : Nat) (h₀ : H)
    (g : Config (Mark ι) Stop (Machine H ι κ) (Thread H ι) Local) : Prop :=
  HartReach ((killClient table init rounds).guard Careful) (killBooted init h₀) g

variable {h₀ : H} {g : Config (Mark ι) Stop (Machine H ι κ) (Thread H ι) Local}

theorem kill_covered (hall : ∀ q, q ∈ table) (hg : CarefulRun table init rounds h₀ g) :
    HartCovered ((killClient table init rounds).guard Careful) (Inv init) Allowed idleToken g := by
  refine HartReach.sound ((kill_keeps hall).guard Careful) ⟨bootToken, boot_inv h₀, fun x => ?_⟩ hg
  cases x with
  | sched h => exact ⟨[], rfl⟩
  | proc p => exact does_lifted boot_born

theorem blamed_reach (hg : CarefulRun table init rounds h₀ g) (x : Thread H ι) :
    (g.thread x).Within (fun l m m' => Blamed x l m m' ∧ Careful l m) fun _ => True := by
  refine HartReach.within (R := fun x l m m' => Blamed x l m m' ∧ Careful l m) (fun x l c => (blamed_body x l c).guard)
    (fun x irq => (blamed_plain (tame_kerneltrap table irq) x).guard) (fun x => ?_) hg x
  have hplain : ∀ {k : Code H ι κ Local}, TameCode k →
      (plain k).Within (fun l m m' => Blamed x l m m' ∧ Careful l m) fun _ => True :=
    fun hk => Prog.Within.relabel (hk.mono fun _ _ _ ht => ⟨ht.blamed x .plain, trivial⟩)
  cases x with
  | sched h => trivial
  | proc p =>
    refine hplain (.bind ⟨fun m m' hf => ?_, fun m => .ite (fun _ => tame_forkret p) fun _ => trivial⟩ fun _ => trivial)
    cases hf
    exact .same rfl

omit [DecidableEq H] [DecidableEq ι] [DecidableEq κ] [Fintype H] in
/-- A slot whose thread is executed is not free. -/
theorem HandOver.executed_used {m : Machine H ι κ} {T : Thread H ι → Token ι κ} (hI : HandOver m T) {h : H} {p : ι}
    (he : m.exec h = .proc p) : (m.procs p).state ≠ .unused := by
  have hrun : (m.procs p).state = .running → (m.procs p).state ≠ .unused := fun hs hu => by
    rw [hs] at hu
    cases hu
  cases hI.proc p with
  | run _ _ _ state => exact hrun state
  | leaving _ _ _ _ _ _ used => exact used
  | down _ _ state => exact hrun (state h he)
  | gone _ _ state => exact hrun (state h he)

/-- What one section does to `killed`, where no free slot is killed. -/
theorem killed_step (hall : ∀ q, q ∈ table) (hg : CarefulRun table init rounds h₀ g)
    (hfree : ∀ q, (g.shared.procs q).state = .unused → (g.shared.procs q).killed = false) {h : H} {x : Thread H ι} {l : Mark ι}
    {f : Machine H ι κ → Option (Machine H ι κ)} {k : Machine H ι κ → Marked H ι κ Local} {m' : Machine H ι κ}
    (hr : g.shared.exec h = x) (hx : g.thread x = .act l f k) (hf : f { g.shared with hart := h } = some m') (q : ι) :
    ((g.shared.procs q).state = .unused → (m'.procs q).killed = false) ∧
      ((g.shared.procs q).killed = false → (m'.procs q).killed = true →
        l = .kill (g.shared.procs q).pid q ∧ (g.shared.procs q).state ≠ .unused ∨ l = .fault q ∧ x = .proc q) ∧
      ((m'.procs q).state = .unused → (m'.procs q).killed = false) := by
  have hw := blamed_reach hg x
  rw [hx] at hw
  obtain ⟨hblamed, hcareful⟩ := hw.1 _ m' hf
  obtain ⟨hkilled, hunused⟩ := hblamed q
  have hblame : (g.shared.procs q).killed = false → (m'.procs q).killed = true →
      l = .kill (g.shared.procs q).pid q ∧ (g.shared.procs q).state ≠ .unused ∨ l = .fault q ∧ x = .proc q := by
    intro hno hyes
    rcases hkilled hyes with hk | hl | hl
    · exact nomatch hno.symm.trans hk
    · rw [hl] at hcareful
      exact .inl ⟨hl, hcareful rfl⟩
    · exact .inr hl
  have hborn : (g.shared.procs q).state = .unused → (m'.procs q).killed = false := by
    intro hu
    by_contra hk
    rcases hblame (hfree q hu) (by simpa using hk) with ⟨-, hn⟩ | ⟨-, hself⟩
    · exact hn hu
    · obtain ⟨T, hI, -⟩ := kill_covered hall hg
      exact hI.handOver.executed_used (hr.trans hself) hu
  exact ⟨hborn, hblame, fun hu => (hunused hu).elim hborn id⟩

theorem unused_not_killed (hall : ∀ q, q ∈ table) (hg : CarefulRun table init rounds h₀ g) (q : ι) :
    (g.shared.procs q).state = .unused → (g.shared.procs q).killed = false := by
  induction hg generalizing q with
  | refl => exact fun _ => rfl
  | step hg hs ih =>
    cases hs with
    | begin h x hr l c hi he => exact ih q
    | act h x hr l f k m' hi hf => exact (killed_step hall hg ih hr hi hf q).2.2
    | trap h x hr ho irq => exact ih q

/-- **Whom `kill` kills.** In a run whose `kill`s are careful, the next `kill` does what it should if and only if the first
slot with its pid is not free; a new process is not killed; and who is killed later was named by a
`kill` or did something wrong. -/
theorem kill_named (hall : ∀ q, q ∈ table) (hg : CarefulRun table init rounds h₀ g) :
    (∀ pid, (∀ q, g.shared.locks (.proc q) = none) → (KillMeets table pid g.shared ↔
      ∀ q, (table.find? fun q => (g.shared.procs q).pid = pid) = some q → (g.shared.procs q).state ≠ .unused)) ∧
    (∀ q, (g.shared.procs q).state = .unused → (g.shared.procs q).killed = false) ∧
    ∀ h x l f k m', g.shared.exec h = x → g.thread x = .act l f k → f { g.shared with hart := h } = some m' → ∀ q,
      ((g.shared.procs q).state = .unused → (m'.procs q).killed = false) ∧
      ((g.shared.procs q).killed = false → (m'.procs q).killed = true →
        l = .kill (g.shared.procs q).pid q ∧ (g.shared.procs q).state ≠ .unused ∨ l = .fault q ∧ x = .proc q) := by
  have hfree := unused_not_killed hall hg
  refine ⟨fun pid hlocks => ?_, hfree, fun h x l f k m' hr hx hf q => ?_⟩
  · exact kill_meets_iff hall hlocks hfree pid
  · obtain ⟨hborn, hblame, -⟩ := killed_step hall hg hfree hr hx hf q
    exact ⟨hborn, hblame⟩

end Runs

/-! ### Runs with and without care -/

instance [Fintype H] (x : Thread H ι) : (c : KillCall κ) → Decidable (KillCall.enabled x c)
  | .call c => inferInstanceAs (Decidable (Call.enabled x c))
  | .fault ops =>
    match x with
    | .sched _ => isFalse id
    | .proc _ => inferInstanceAs (Decidable (Op.disciplined [] ops))

section Instances
variable [Fintype H] (table : List ι) (init : ι) (rounds : Nat) (x : Thread H ι)

instance (l : Local) (c : KillCall κ) : Decidable ((killClient table init rounds).enabled x l c) :=
  inferInstanceAs (Decidable (KillCall.enabled x c))

instance (m : Machine H ι κ) : Decidable ((killClient table init rounds).runs x m) :=
  inferInstanceAs (Decidable (m.exec m.hart = x))

instance (l : Local) (c : KillCall κ) : Decidable (((killClient table init rounds).guard Careful).enabled x l c) :=
  inferInstanceAs (Decidable (KillCall.enabled x c))

instance (m : Machine H ι κ) : Decidable (((killClient table init rounds).guard Careful).runs x m) :=
  inferInstanceAs (Decidable (m.exec m.hart = x))

end Instances

/-- Process 0 calls `kill(pid)`, before or after it forks process 1. -/
def killsBefore (pid : Int) : List (HartMove (Fin 2) (Thread (Fin 2) (Fin 2)) (KillCall Unit)) :=
  [.begin 0 (.sched 0) (.call .scheduler), .acts 0 (.sched 0) 4, .acts 0 (.proc 0) 3, .begin 0 (.proc 0) (.call (.kill pid)),
    .acts 0 (.proc 0) 8, .begin 0 (.proc 0) (.call (.fork none)), .acts 0 (.proc 0) 17]

def killsAfter (pid : Int) : List (HartMove (Fin 2) (Thread (Fin 2) (Fin 2)) (KillCall Unit)) :=
  [.begin 0 (.sched 0) (.call .scheduler), .acts 0 (.sched 0) 4, .acts 0 (.proc 0) 3, .begin 0 (.proc 0) (.call (.fork none)),
    .acts 0 (.proc 0) 17, .begin 0 (.proc 0) (.call (.kill pid)), .acts 0 (.proc 0) 8]

/-- `kill(0)` returns 0 where there is no such process, and the process that is forked next is killed. -/
theorem not_kill_named :
    (¬ ∀ g, HartReach (killClient [0, 1] 0 1)
        (killBooted 0 0 : Config (Mark (Fin 2)) Stop (Machine (Fin 2) (Fin 2) Unit) _ _) g →
      ∀ pid, (∀ q, g.shared.locks (.proc q) = none) → KillMeets [0, 1] pid g.shared) ∧
    ∃ g, HartReach (killClient [0, 1] 0 1)
        (killBooted 0 0 : Config (Mark (Fin 2)) Stop (Machine (Fin 2) (Fin 2) Unit) _ _) g ∧
      (g.shared.procs 1).state = .runnable ∧ (g.shared.procs 1).pid = 2 ∧ (g.shared.procs 1).killed = true := by
  constructor
  · intro h
    have hmeets := h _ .refl 0 fun _ => rfl
    rw [kill_meets_iff (by decide) (fun _ => rfl) fun _ _ => rfl] at hmeets
    exact hmeets 1 rfl rfl
  · exact HartReach.of_play (killsBefore 0) (by decide +kernel)

/-- Process 0 kills the process that it has forked. -/
theorem kill_named_child : ∃ g : Config (Mark (Fin 2)) Stop (Machine (Fin 2) (Fin 2) Unit) (Thread (Fin 2) (Fin 2)) Local,
    CarefulRun [0, 1] 0 1 0 g ∧ (g.shared.procs 1).killed = true ∧ (g.shared.procs 0).killed = false ∧
      KillMeets [0, 1] 2 g.shared := by
  have hplay : ∃ g : Config (Mark (Fin 2)) Stop (Machine (Fin 2) (Fin 2) Unit) (Thread (Fin 2) (Fin 2)) Local,
      CarefulRun [0, 1] 0 1 0 g ∧ ((g.shared.procs 1).killed = true ∧ (g.shared.procs 0).killed = false ∧
        (∀ q, (g.shared.procs q).state ≠ .unused) ∧ ∀ q, g.shared.locks (.proc q) = none) :=
    HartReach.of_play (killsAfter 2) (by decide +kernel)
  obtain ⟨g, hg, hchild, hparent, hused, hlocks⟩ := hplay
  exact ⟨g, hg, hchild, hparent, ((kill_named (by decide) hg).1 2 hlocks).mpr fun q _ => hused q⟩

end Farron.Harts
