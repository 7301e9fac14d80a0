import Farron.Proc.HandOver
import Mathlib.Data.List.Count

/-! Parents, children and zombies.

What a process is doing for its family is its task. `Family` says what each task
relies on, and what holds between them: a parent is alive, and a process that sleeps in `wait`
has no zombie child. Changes of the process table are mild, if nobody's parent, birth or death
is concerned, or are one of the five that `Family.change` is for. -/
namespace Farron.Harts
open Resumption
variable {H ι κ : Type}

/-- What the task of process `p` means. -/
inductive TaskOk (init : ι) (m : Machine H ι κ) (p : ι) (t : Token ι κ) : Prop
  | none (task : t.task = .none)
  | waiting (scanned : List ι) (child : Option ι) (task : t.task = .waiting scanned child) (mode : t.mode = .run)
      (held : .proc p ∈ t.held)
      (alive : p ≠ init → ∀ q ∈ scanned, (m.procs q).parent = some p → (m.procs q).state ≠ .zombie)
      (mine : ∀ q, child = some q → (m.procs q).parent = some p)
  | exiting (parent : ι) (orphaned : List ι) (child : Option ι) (task : t.task = .exiting parent orphaned child)
      (other : p ≠ init)
      (parents : (m.procs p).parent = some parent ∨ (m.procs p).parent = some init)
      (used : (m.procs p).state ≠ .unused) (alive : (m.procs p).state ≠ .zombie)
      (orphans : ∀ q ∈ orphaned, (m.procs q).parent ≠ some p)
      (mine : ∀ q, child = some q → (m.procs q).parent = some p)
  | forking (q : ι) (stage : Stage) (task : t.task = .forking q stage) (mode : t.mode = .run) (held : .proc q ∈ t.held)
      (state : (m.procs q).state = .unused) (context : stage ≠ .found → m.fresh q = true)
      (parent : stage = .linked → (m.procs q).parent = some p)

/-- The process whose lock process `p` holds for its task. -/
def Task.lock (p : ι) : Task ι → Option ι
  | .waiting _ _ => some p
  | .forking q _ => some q
  | _ => .none

/-- `p` sleeps in `wait`. -/
def Proc.awaits (x : Proc ι κ) (p : ι) : Prop := x.state = .sleeping ∧ x.chan = some (.proc p)

structure Family (init : ι) (m : Machine H ι κ) (T : Thread H ι → Token ι κ) : Prop where
  task : ∀ p, TaskOk init m p (T (.proc p))
  live : (m.procs init).state ≠ .unused ∧ (m.procs init).state ≠ .zombie
  parent : ∀ p q, (m.procs q).parent = some p → (m.procs p).state ≠ .unused ∧ (m.procs p).state ≠ .zombie
  parented : ∀ q, q ≠ init → (m.procs q).state ≠ .unused → (m.procs q).parent ≠ none
  newborn : ∀ p q, (m.procs q).state = .unused → (m.procs q).parent = some p → (T (.proc p)).task = .forking q .linked
  heard : ∀ p q, p ≠ init → (m.procs p).awaits p → (m.procs q).parent = some p → (m.procs q).state ≠ .zombie

/-! ### Mild changes -/

/-- A change that leaves a zombie alone, and makes none. -/
structure Settled (old new : Proc ι κ) : Prop where
  zombie : new.state = .zombie ↔ old.state = .zombie
  exit : old.state = .zombie → new.pid = old.pid ∧ new.xstate = old.xstate
  pid : 0 ≤ old.pid → 0 ≤ new.pid

structure Mild (old new : Proc ι κ) : Prop extends Settled old new where
  parent : new.parent = old.parent
  unused : new.state = .unused ↔ old.state = .unused

theorem Settled.refl (x : Proc ι κ) : Settled x x := ⟨Iff.rfl, fun _ => ⟨rfl, rfl⟩, id⟩

theorem Mild.refl (x : Proc ι κ) : Mild x x := ⟨.refl x, rfl, Iff.rfl⟩

/-- A change of the state alone that is no birth and no death. -/
theorem Mild.state {x y : Proc ι κ} (hx : x.state ≠ .unused ∧ x.state ≠ .zombie) (hy : y.state ≠ .unused ∧ y.state ≠ .zombie)
    (hparent : y.parent = x.parent) (hpid : y.pid = x.pid) : Mild x y where
  zombie := ⟨fun h => absurd h hy.2, fun h => absurd h hx.2⟩
  exit h := absurd h hx.2
  pid h := hpid ▸ h
  parent := hparent
  unused := ⟨fun h => absurd h hy.1, fun h => absurd h hx.1⟩

section Mild
variable {init : ι} {m m' : Machine H ι κ} {T : Thread H ι → Token ι κ}

theorem TaskOk.locked {p o : ι} {t : Token ι κ} (h : TaskOk init m p t) (ho : t.task.lock p = some o) :
    .proc o ∈ t.held := by
  cases h with
  | none task => rw [task] at ho; cases ho
  | waiting scanned child task mode held =>
    rw [task] at ho
    cases ho
    exact held
  | exiting parent orphaned child task => rw [task] at ho; cases ho
  | forking q stage task mode held =>
    rw [task] at ho
    cases ho
    exact held

theorem TaskOk.mild {p : ι} {t t' : Token ι κ} (h : TaskOk init m p t) (hprocs : ∀ q, Mild (m.procs q) (m'.procs q))
    (htask : t'.task = t.task)
    (hfresh : ∀ q s, t.task = .forking q s → m'.fresh q = m.fresh q)
    (hheld : ∀ o, t.task.lock p = some o → t'.mode = t.mode ∧ .proc o ∈ t'.held) : TaskOk init m' p t' := by
  cases h with
  | none task => exact .none (htask.trans task)
  | waiting scanned child task mode held alive mine =>
    obtain ⟨hmode, hheld⟩ := hheld p (congrArg (Task.lock p) task)
    refine .waiting scanned child (htask.trans task) (hmode.trans mode) hheld (fun hp q hq hpar => ?_)
      fun q hq => (hprocs q).parent.trans (mine q hq)
    rw [(hprocs q).parent] at hpar
    exact fun hz => alive hp q hq hpar ((hprocs q).zombie.mp hz)
  | exiting parent orphaned child task other parents used alive orphans mine =>
    refine .exiting parent orphaned child (htask.trans task) other ?_ (fun h => used ((hprocs p).unused.mp h))
      (fun h => alive ((hprocs p).zombie.mp h)) (fun q hq => ?_) fun q hq => (hprocs q).parent.trans (mine q hq)
    · rw [(hprocs p).parent]
      exact parents
    · rw [(hprocs q).parent]
      exact orphans q hq
  | forking q stage task mode held state context parent =>
    obtain ⟨hmode, hheld⟩ := hheld q (congrArg (Task.lock p) task)
    refine .forking q stage (htask.trans task) (hmode.trans mode) hheld ((hprocs q).unused.mpr state)
      (fun hs => ?_) fun hs => (hprocs q).parent.trans (parent hs)
    rw [hfresh q stage task]
    exact context hs

variable [DecidableEq H] [DecidableEq ι] {x : Thread H ι} {t : Token ι κ}

/-- A mild change keeps the invariant, if nobody goes to sleep in `wait`. -/
theorem Family.mild (hF : Family init m T) (hprocs : ∀ q, Mild (m.procs q) (m'.procs q))
    (hheard : ∀ p q, p ≠ init → (m'.procs p).awaits p → (m'.procs q).parent = some p → (m'.procs q).state ≠ .zombie)
    (hfresh : ∀ p q s, .proc p ≠ x → (T (.proc p)).task = .forking q s → m'.fresh q = m.fresh q)
    (htask : ∀ p, x = .proc p → TaskOk init m' p t)
    (hkeep : ∀ q, (T x).task = .forking q .linked → t.task = .forking q .linked) :
    Family init m' (Function.update T x t) := by
  refine ⟨fun p => ?_, ?_, fun p q hpar => ?_, fun q hq hst => ?_, fun p q hst hpar => ?_, hheard⟩
  · by_cases hp : Thread.proc p = x
    · subst hp
      rw [Function.update_self]
      exact htask p rfl
    · rw [Function.update_of_ne hp]
      exact (hF.task p).mild hprocs rfl (hfresh p · · hp) fun o ho => ⟨rfl, (hF.task p).locked ho⟩
  · exact ⟨fun h => hF.live.1 ((hprocs init).unused.mp h), fun h => hF.live.2 ((hprocs init).zombie.mp h)⟩
  · rw [(hprocs q).parent] at hpar
    have := hF.parent p q hpar
    exact ⟨fun h => this.1 ((hprocs p).unused.mp h), fun h => this.2 ((hprocs p).zombie.mp h)⟩
  · rw [(hprocs q).parent]
    exact hF.parented q hq fun h => hst ((hprocs q).unused.mpr h)
  · rw [(hprocs q).parent] at hpar
    have hold := hF.newborn p q ((hprocs q).unused.mp hst) hpar
    by_cases hp : Thread.proc p = x
    · subst hp
      rw [Function.update_self]
      exact hkeep q hold
    · rw [Function.update_of_ne hp]
      exact hold

omit [DecidableEq H] [DecidableEq ι] in
/-- Who sleeps in `wait` still hears of its children, if it did before. -/
theorem Family.heard_mild (hF : Family init m T) (hprocs : ∀ q, Mild (m.procs q) (m'.procs q))
    (hawaits : ∀ p, (m'.procs p).awaits p → (m.procs p).awaits p) (p q : ι) (hp : p ≠ init)
    (hawait : (m'.procs p).awaits p) (hpar : (m'.procs q).parent = some p) : (m'.procs q).state ≠ .zombie := by
  rw [(hprocs q).parent] at hpar
  exact fun hz => hF.heard p q hp (hawaits p hawait) hpar ((hprocs q).zombie.mp hz)

end Mild

/-! ### Births, adoptions and deaths -/

/-- What the process `p`, which holds the lock of `q`, may do to `q`. -/
structure Change (init : ι) (m : Machine H ι κ) (p : ι) (held : List (Lock ι κ)) (q : ι) (new : Proc ι κ) : Prop where
  gain : ∀ r, r ≠ init → r ≠ p → new.parent = some r → (m.procs q).parent = some r
  lose : ∀ r, r ≠ p → (m.procs q).parent = some r → new.parent = some r
  adopt : (m.procs q).parent = some p → (m.procs q).state ≠ .unused → (m.procs q).state ≠ .zombie →
    new.parent = some p ∨ new.parent = some init
  unused : new.state = .unused → (m.procs q).state = .unused ∨ (m.procs q).state = .zombie
  zombie : new.state = .zombie → (m.procs q).state = .zombie ∨ q = p ∧ q ≠ init ∧ new.parent ≠ some q ∧
    (∀ r, (m.procs r).parent ≠ some q) ∧
    ∀ r, new.parent = some r → r ≠ init → .proc r ∈ held ∧ ¬ (m.procs r).awaits r
  parented : q ≠ init → new.state ≠ .unused → new.parent ≠ none
  awaits : new.awaits q → (m.procs q).awaits q

section Change
variable [DecidableEq H] [DecidableEq ι] {init : ι} {m m' : Machine H ι κ} {T : Thread H ι → Token ι κ}
variable {p q : ι} {new : Proc ι κ} {t : Token ι κ}

omit [DecidableEq H] in
/-- What another process relies on stays true. -/
theorem TaskOk.change (hI : HandOver m T) (hF : Family init m T) (hx : m.exec m.hart = .proc p)
    (hq : .proc q ∈ (T (.proc p)).held) (hprocs : m'.procs = Function.update m.procs q new) (hfresh : m'.fresh = m.fresh)
    (hnew : Change init m p (T (.proc p)).held q new) {r : ι} (hr : r ≠ p) : TaskOk init m' r (T (.proc r)) := by
  have hnot : ∀ l, (T (.proc r)).mode = .run → l ∈ (T (.proc r)).held → l ∉ (T (.proc p)).held := by
    intro l hrun hl hp
    cases hI.proc r with
    | run mode h he =>
      have := hI.one_holder (h := h) (g := m.hart) (l := l) (by rw [he]; exact hl) (by rw [hx]; exact hp)
      rw [this, hx] at he
      cases he
      exact hr rfl
    | leaving d mode => rw [mode] at hrun; cases hrun
    | down mode => rw [mode] at hrun; cases hrun
    | gone mode => rw [mode] at hrun; cases hrun
  have hother : ∀ q', q' ≠ q → m'.procs q' = m.procs q' := by
    intro q' hq'
    rw [hprocs, Function.update_of_ne hq']
  have hself : m'.procs q = new := by
    rw [hprocs, Function.update_self]
  cases hF.task r with
  | none task => exact .none task
  | waiting scanned child task mode held alive mine =>
    refine .waiting scanned child task mode held (fun hri q' hq' hpar hz => ?_) fun q' hc => ?_
    · by_cases h : q' = q
      · subst h
        rw [hself] at hpar hz
        obtain hold | ⟨_, _, _, _, hlock⟩ := hnew.zombie hz
        · exact alive hri q' hq' (hnew.gain r hri hr hpar) hold
        · exact hnot _ mode held (hlock r hpar hri).1
      · rw [hother q' h] at hpar hz
        exact alive hri q' hq' hpar hz
    · by_cases h : q' = q
      · subst h
        rw [hself]
        exact hnew.lose r hr (mine q' hc)
      · rw [hother q' h]
        exact mine q' hc
  | exiting parent orphaned child task other parents used alive orphans mine =>
    have hmine : ∀ q', child = some q' → (m'.procs q').parent = some r := by
      intro q' hc
      by_cases h : q' = q
      · subst h
        rw [hself]
        exact hnew.lose r hr (mine q' hc)
      · rw [hother q' h]
        exact mine q' hc
    have horphans : ∀ q' ∈ orphaned, (m'.procs q').parent ≠ some r := by
      intro q' hq' hpar
      by_cases h : q' = q
      · subst h
        rw [hself] at hpar
        exact orphans q' hq' (hnew.gain r other hr hpar)
      · rw [hother q' h] at hpar
        exact orphans q' hq' hpar
    by_cases h : r = q
    · subst h
      refine .exiting parent orphaned child task other ?_ ?_ ?_ horphans hmine
      · rw [hself]
        have hkeep : ∀ o, (m.procs r).parent = some o → new.parent = some o ∨ new.parent = some init := by
          intro o ho
          by_cases hop : o = p
          · rw [hop] at ho ⊢
            exact hnew.adopt ho used alive
          · exact .inl (hnew.lose o hop ho)
        obtain hpar | hpar := parents
        · exact hkeep _ hpar
        · exact .inr ((hkeep _ hpar).elim id id)
      · rw [hself]
        exact fun hu => (hnew.unused hu).elim used alive
      · rw [hself]
        exact fun hz => (hnew.zombie hz).elim alive fun h => hr h.1
    · rw [← hother r h] at parents used alive
      exact .exiting parent orphaned child task other parents used alive horphans hmine
  | forking q' stage task mode held state context parent =>
    have h : q' ≠ q := by
      intro h
      subst h
      exact hnot _ mode held hq
    rw [← hother q' h] at state parent
    rw [← hfresh] at context
    exact .forking q' stage task mode held state context parent

theorem Family.change (hI : HandOver m T) (hF : Family init m T) (hx : m.exec m.hart = .proc p)
    (hmode : (T (.proc p)).mode = .run) (hq : .proc q ∈ (T (.proc p)).held)
    (hprocs : m'.procs = Function.update m.procs q new) (hfresh : m'.fresh = m.fresh)
    (hnew : Change init m p (T (.proc p)).held q new)
    (hnewborn : new.state = .unused → ∀ r, new.parent = some r → r = p ∧ t.task = .forking q .linked)
    (htask : TaskOk init m' p t)
    (hkeep : ∀ q', q' ≠ q → (T (.proc p)).task = .forking q' .linked → t.task = .forking q' .linked) :
    Family init m' (Function.update T (.proc p) t) := by
  have hrun : (m.procs p).state = .running := by
    cases hI.proc p with
    | run mode h he state => exact state
    | leaving d mode => rw [hmode] at mode; cases mode
    | down mode => rw [hmode] at mode; cases mode
    | gone mode => rw [hmode] at mode; cases mode
  have hother : ∀ q', q' ≠ q → m'.procs q' = m.procs q' := by
    intro q' hq'
    rw [hprocs, Function.update_of_ne hq']
  have hself : m'.procs q = new := by
    rw [hprocs, Function.update_self]
  refine ⟨fun r => ?_, ?_, fun r q' hpar => ?_, fun q' hqi hst => ?_, fun r q' hst hpar => ?_, fun r q' hri haw hpar hz => ?_⟩
  · by_cases hr : r = p
    · subst hr
      rw [Function.update_self]
      exact htask
    · rw [Function.update_of_ne fun he => hr (Thread.proc.inj he)]
      exact TaskOk.change hI hF hx hq hprocs hfresh hnew hr
  · by_cases h : init = q
    · subst h
      rw [hself]
      exact ⟨fun hu => (hnew.unused hu).elim hF.live.1 hF.live.2, fun hz => (hnew.zombie hz).elim hF.live.2 fun h => h.2.1 rfl⟩
    · rw [hother init h]
      exact hF.live
  · -- the parent was alive before
    have hold : (m.procs r).state ≠ .unused ∧ (m.procs r).state ≠ .zombie := by
      by_cases h : q' = q
      · subst h
        rw [hself] at hpar
        by_cases hrp : r = p
        · rw [hrp, hrun]
          exact ⟨fun he => (nomatch he), fun he => (nomatch he)⟩
        · by_cases hri : r = init
          · rw [hri]
            exact hF.live
          · exact hF.parent r q' (hnew.gain r hri hrp hpar)
      · rw [hother q' h] at hpar
        exact hF.parent r q' hpar
    by_cases hrq : r = q
    · subst hrq
      rw [hself]
      refine ⟨fun hu => (hnew.unused hu).elim hold.1 hold.2, fun hz => ?_⟩
      obtain hzo | ⟨_, _, hown, hnone, _⟩ := hnew.zombie hz
      · exact hold.2 hzo
      · by_cases h : q' = r
        · rw [h, hself] at hpar
          exact hown hpar
        · rw [hother q' h] at hpar
          exact hnone q' hpar
    · rw [hother r hrq]
      exact hold
  · by_cases h : q' = q
    · subst h
      rw [hself] at hst ⊢
      exact hnew.parented hqi hst
    · rw [hother q' h] at hst ⊢
      exact hF.parented q' hqi hst
  · by_cases h : q' = q
    · subst h
      rw [hself] at hst hpar
      obtain ⟨rfl, htask'⟩ := hnewborn hst r hpar
      rw [Function.update_self]
      exact htask'
    · rw [hother q' h] at hst hpar
      have hold := hF.newborn r q' hst hpar
      by_cases hr : r = p
      · subst hr
        rw [Function.update_self]
        exact hkeep q' h hold
      · rw [Function.update_of_ne fun he => hr (Thread.proc.inj he)]
        exact hold
  · have hold : (m.procs r).awaits r := by
      by_cases h : r = q
      · subst h
        rw [hself] at haw
        exact hnew.awaits haw
      · rw [hother r h] at haw
        exact haw
    have hrp : r ≠ p := by
      intro h
      rw [h, Proc.awaits, hrun] at hold
      exact nomatch hold.1
    by_cases h : q' = q
    · subst h
      rw [hself] at hpar hz
      obtain hzo | ⟨_, _, _, _, hlock⟩ := hnew.zombie hz
      · exact hF.heard r q' hri hold (hnew.gain r hri hrp hpar) hzo
      · exact (hlock r hpar hri).2 hold
    · rw [hother q' h] at hpar hz
      exact hF.heard r q' hri hold hpar hz

end Change
end Farron.Harts
