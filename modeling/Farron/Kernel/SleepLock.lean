import Farron.Kernel.Frames
import Farron.Kernel.Wakeups

/-! Sleep locks, from `kernel/sleeplock.c` (`sleeplock_held_once`).

`holders` is history, read by no function: the processes that have set `locked` and not yet
cleared it. Pids never change here, and those of the processes that run differ; a slot that is
UNUSED may have any. The processes also sleep and wake each other on other channels. -/
namespace Farron
open Resumption
variable {ι κ : Type} [DecidableEq ι] [DecidableEq κ]

structure SleepLock (ι : Type) where
  locked : Bool
  pid : Int
  holders : List ι

/-- The channel of the lock, and others. -/
inductive LockChan (κ : Type)
  | lk
  | other (c : κ)
  deriving DecidableEq

abbrev LockCode (ι κ : Type) := Kernel Unit ι (LockChan κ) (SleepLock ι)

namespace SleepLock
variable (d : SleepLock ι) (i : ι)

/-- `lk->locked = 1; lk->pid = myproc()->pid`. -/
def lock (pid : Int) : SleepLock ι := ⟨true, pid, d.holders ++ [i]⟩

/-- `lk->locked = 0; lk->pid = 0`. -/
def unlock : SleepLock ι := ⟨false, 0, d.holders.erase i⟩

end SleepLock

section Calls
variable (i : ι) (proc : List ι) (rounds : Nat)

/-- `myproc()->pid`. -/
def myPid : LockCode ι κ Int := .act () some fun w => .ret (w.procs i).pid

/-- The loop of `acquiresleep`. -/
def waitUnlocked : Nat → LockCode ι κ Unit
  | 0 => .stop .spin
  | n + 1 => do
    let d ← fetch
    if d.locked = true then
      sleep i .lk
      waitUnlocked n
    else return

def SleepLock.acquiresleep : LockCode ι κ Unit := do
  acquire i
  waitUnlocked i rounds
  let pid ← myPid i
  update () (·.lock i pid)
  release i

def SleepLock.releasesleep : LockCode ι κ Unit := do
  acquire i
  update () (·.unlock i)
  wakeup .lk proc
  release i

def SleepLock.holdingsleep : LockCode ι κ Bool := do
  acquire i
  let d ← fetch
  let pid ← myPid i
  release i
  return d.locked && d.pid == pid

end Calls

/-! ### The processes -/

/-- Whether this is a process at all, whether it is between `acquiresleep` and `releasesleep`, and
what the `holdingsleep` told that it has called last. -/
structure LockUser where
  live : Bool
  held : Bool
  told : Option Bool

inductive LockCall (κ : Type)
  | acquire
  | release
  | holding
  | kill (pid : Int)
  | sleepOn (c : κ)
  | wakeOn (c : κ)

/-- Only the holder releases. -/
def LockCall.enabled (u : LockUser) : LockCall κ → Prop
  | .release => u.live = true ∧ u.held = true
  | _ => u.live = true

def LockCall.body (proc : List ι) (rounds : Nat) (i : ι) (u : LockUser) : LockCall κ → LockCode ι κ LockUser
  | .acquire => do
    SleepLock.acquiresleep i rounds
    return { u with held := true, told := none }
  | .release => do
    SleepLock.releasesleep i proc
    return { u with held := false, told := none }
  | .holding => do
    let b ← SleepLock.holdingsleep i
    return { u with told := some b }
  | .kill pid => do
    let _ ← Farron.kill pid proc
    return u
  | .sleepOn c => do
    sleepElsewhere i (.other c)
    return u
  | .wakeOn c => do
    wakeup (.other c) proc
    return u

def lockClient (proc : List ι) (rounds : Nat) :
    Client Unit Stop (World ι (LockChan κ) (SleepLock ι)) ι LockUser (LockCall κ) where
  enabled := LockCall.enabled
  body i u c := c.body proc rounds i u
  pass _ _ _ _ := False

/-- After `initsleeplock`. -/
def lockStarted (procs : ι → Proc ι (LockChan κ)) : Config Unit Stop (World ι (LockChan κ) (SleepLock ι)) ι LockUser where
  shared := ⟨procs, none, ⟨false, 0, []⟩⟩
  thread j := .ret ⟨decide ((procs j).state ≠ .unused), false, none⟩

/-! ### What the lock is about -/

/-- `fine`: what the process has been told is so. -/
structure LockOwn where
  live : Bool
  held : Bool
  fine : Prop

/-- `pid` and `live` are those of the start. -/
structure LockKept (pid : ι → Int) (live : ι → Prop) (d : SleepLock ι) (own : ι → LockOwn) : Prop where
  free : d.locked = false → d.holders = []
  held : d.locked = true → ∃ i, d.holders = [i] ∧ d.pid = pid i ∧ live i
  holder : ∀ i, (own i).held = true ↔ i ∈ d.holders
  live : ∀ i, (own i).live = true → live i
  fine : ∀ i, (own i).fine

namespace LockKept
variable {pid : ι → Int} {live : ι → Prop} {d : SleepLock ι} {own : ι → LockOwn} (h : LockKept pid live d own)
include h

omit [DecidableEq ι] in
theorem locked {i : ι} (hi : (own i).held = true) : d.locked = true ∧ d.holders = [i] := by
  have hmem := (h.holder i).mp hi
  cases hl : d.locked with
  | false =>
    rw [h.free hl] at hmem
    cases hmem
  | true =>
    obtain ⟨j, hj, -⟩ := h.held hl
    rw [hj] at hmem
    rw [List.mem_singleton.mp hmem]
    exact ⟨rfl, hj⟩

/-- A process goes on with `x` instead. -/
theorem changed {i : ι} {x : LockOwn} (hx : x.live = (own i).live ∧ x.fine) :
    (∀ j, (Function.update own i x j).live = true → live j) ∧ ∀ j, (Function.update own i x j).fine := by
  refine ⟨fun j hj => ?_, fun j => ?_⟩
  · by_cases hji : j = i
    · subst hji
      rw [Function.update_self, hx.1] at hj
      exact h.live j hj
    · rw [Function.update_of_ne hji] at hj
      exact h.live j hj
  · by_cases hji : j = i
    · subst hji
      rw [Function.update_self]
      exact hx.2
    · rw [Function.update_of_ne hji]
      exact h.fine j

theorem lock (hfree : d.locked = false) {i : ι} {x : LockOwn} (hlive : (own i).live = true) (hheld : x.held = true)
    (hx : x.live = (own i).live ∧ x.fine) : LockKept pid live (d.lock i (pid i)) (Function.update own i x) := by
  have hnone := h.free hfree
  have hholders : (d.lock i (pid i)).holders = [i] := by
    show d.holders ++ [i] = [i]
    rw [hnone]
    rfl
  obtain ⟨hlives, hfine⟩ := h.changed hx
  refine ⟨fun hl => (by cases hl), fun _ => ⟨i, hholders, rfl, h.live i hlive⟩, fun j => ?_, hlives, hfine⟩
  rw [hholders, List.mem_singleton]
  by_cases hji : j = i
  · subst hji
    rw [Function.update_self]
    exact ⟨fun _ => rfl, fun _ => hheld⟩
  · rw [Function.update_of_ne hji, h.holder, hnone]
    exact ⟨fun hmem => (by cases hmem), fun he => absurd he hji⟩

theorem unlock {i : ι} {x : LockOwn} (hi : (own i).held = true) (hheld : x.held = false)
    (hx : x.live = (own i).live ∧ x.fine) : LockKept pid live (d.unlock i) (Function.update own i x) := by
  obtain ⟨-, hholders⟩ := h.locked hi
  have hnone : (d.unlock i).holders = [] := by
    show d.holders.erase i = []
    rw [hholders, List.erase_cons_head]
  obtain ⟨hlives, hfine⟩ := h.changed hx
  refine ⟨fun _ => hnone, fun hl => (by cases hl), fun j => ?_, hlives, hfine⟩
  rw [hnone]
  refine ⟨fun hj => ?_, fun hmem => by cases hmem⟩
  by_cases hji : j = i
  · subst hji
    rw [Function.update_self, hheld] at hj
    cases hj
  · rw [Function.update_of_ne hji, h.holder, hholders, List.mem_singleton] at hj
    exact absurd hj hji

omit [DecidableEq ι] in
/-- What `holdingsleep` tells a process. -/
theorem told (hpid : ∀ i j, live i → live j → pid i = pid j → i = j) {i : ι} (hi : (own i).live = true) :
    (d.locked && d.pid == pid i) = (own i).held := by
  rw [Bool.eq_iff_iff, Bool.and_eq_true, beq_iff_eq]
  constructor
  · rintro ⟨hl, hp⟩
    obtain ⟨j, hj, hpj, hlive⟩ := h.held hl
    have hji : j = i := hpid j i hlive (h.live i hi) (hpj.symm.trans hp)
    rw [h.holder, hj, hji]
    exact List.mem_singleton_self i
  · intro hheld
    obtain ⟨hl, hholders⟩ := h.locked hheld
    obtain ⟨j, hj, hpj, -⟩ := h.held hl
    rw [hholders] at hj
    cases hj
    exact ⟨hl, hpj⟩

end LockKept

/-- A process may sleep on the lock while it is locked. -/
def lockWatch (κ : Type) (pid : ι → Int) (live : ι → Prop) :
    Watch ι (LockChan κ) (SleepLock ι) (SleepLock ι) LockOwn where
  want c d := c = .lk → d.locked = true
  able _ _ := True
  J := LockKept pid live
  fix := id

/-- What an idle process owns. -/
def LockUser.own (u : LockUser) : LockOwn := ⟨u.live, u.held, ∀ b, u.told = some b → b = u.held⟩

section Code
variable {C : Unit → World ι (LockChan κ) (SleepLock ι) → Prop} {pid : ι → Int} {live : ι → Prop} {i : ι} {proc : List ι}
  {rounds : Nat} {own x : LockOwn}

omit [DecidableEq κ] in
/-- The loop ends with the lock free. -/
theorem runs_waitUnlocked (n : Nat) :
    Runs (lockWatch κ pid live) C i (waitUnlocked i n) (.held own) (fun _ => True)
      fun _ t' d => t' = .held own ∧ d.locked = false := by
  induction n with
  | zero => exact Rules.Judge.stop trivial
  | succ n ih =>
    refine runs_seq (fun _ => .held own) (runs_fetch trivial) fun d => ?_
    by_cases hl : d.locked = true
    · rw [if_pos hl]
      refine runs_seq (fun _ => .held own) (F := fun _ _ => True) ?_ fun _ => ih
      refine runs_post (runs_sleep LockChan.lk (fun d' hN _ => ?_) trivial) fun _ _ _ ht => ⟨ht, trivial⟩
      have hd : d' = d := hN.2
      rw [hd]
      exact hl
    · rw [if_neg hl]
      refine runs_ret fun d' hN => ⟨rfl, ?_⟩
      have hd : d' = d := hN.2
      rw [hd]
      exact Bool.eq_false_iff.mpr hl

theorem runs_releasesleep (hproc : ∀ j, j ∈ proc) (hi : own.held = true) (hheld : x.held = false)
    (hx : x.live = own.live ∧ x.fine) :
    Runs (lockWatch κ pid live) C i (SleepLock.releasesleep i proc) (.out own) (fun _ => True) fun _ t' _ => t' = .out x ∧ True := by
  refine runs_seq (fun _ => .held own) (F := fun _ _ => True)
    (runs_post (runs_acquire fun _ => trivial) fun _ _ _ ht => ⟨ht, trivial⟩) fun _ => ?_
  refine runs_seq (fun _ => .owing x fun c _ => c = LockChan.lk) (F := fun _ _ => True) ?_ fun _ => ?_
  · apply runs_update
    intro w T hI hT _ _
    have hkept : LockKept pid live w.data fun j => (T j).own := hI.own
    have hown : (T i).own = own := by rw [hT]; rfl
    refine ⟨hkept.unlock (by rw [hown]; exact hi) hheld (by rw [hown]; exact hx), trivial, fun c j _ _ => ?_⟩
    by_cases hc : c = LockChan.lk
    · exact .inr hc
    · exact .inl fun h => absurd h hc
  refine runs_seq (fun _ => .held x) (F := fun _ _ => True) ?_ fun _ =>
    runs_post runs_release_held fun _ _ _ ht => ⟨ht, trivial⟩
  refine runs_post (runs_wakeup_all hproc LockChan.lk _) fun _ t' _ ht => ⟨?_, trivial⟩
  rw [ht.1]
  congr 1
  funext c j
  exact propext ⟨fun h => h.2 h.1, False.elim⟩

section Pids
variable (hC : ∀ l w, C l w → ∀ j, (w.procs j).pid = pid j)
include hC

omit [DecidableEq κ] in
theorem runs_myPid {t : Duty ι (LockChan κ) LockOwn} {N : SleepLock ι → Prop} :
    Runs (lockWatch κ pid live) C i (myPid i) t N fun p t' d => t' = t ∧ (p = pid i ∧ N d) := by
  apply runs_look
  intro w hw
  exact runs_ret fun d hN => ⟨rfl, hC () w hw i, hN⟩

omit [DecidableEq κ] in
theorem runs_acquiresleep (hlive : own.live = true) (hheld : x.held = true) (hx : x.live = own.live ∧ x.fine) :
    Runs (lockWatch κ pid live) C i (SleepLock.acquiresleep i rounds) (.out own) (fun _ => True)
      fun _ t' _ => t' = .out x ∧ True := by
  refine runs_seq (fun _ => .held own) (F := fun _ _ => True)
    (runs_post (runs_acquire fun _ => trivial) fun _ _ _ ht => ⟨ht, trivial⟩) fun _ => ?_
  refine runs_seq (fun _ => .held own) (runs_waitUnlocked rounds) fun _ => ?_
  refine runs_seq (fun _ => .held own) (runs_myPid hC) fun p => ?_
  refine runs_seq (fun _ => .held x) (F := fun _ _ => True) ?_ fun _ =>
    runs_post runs_release_held fun _ _ _ ht => ⟨ht, trivial⟩
  apply runs_update
  intro w T hI hT hN _
  obtain ⟨hp, hfree⟩ := hN
  have hkept : LockKept pid live w.data fun j => (T j).own := hI.own
  have hown : (T i).own = own := by rw [hT]; rfl
  refine ⟨?_, trivial, fun c j _ _ => .inl fun _ => rfl⟩
  rw [hp]
  exact hkept.lock hfree (by rw [hown]; exact hlive) hheld (by rw [hown]; exact hx)

omit [DecidableEq κ] in
theorem runs_holdingsleep (hpid : ∀ i j, live i → live j → pid i = pid j → i = j) (hlive : own.live = true) :
    Runs (lockWatch κ pid live) C i (SleepLock.holdingsleep i) (.out own) (fun _ => True)
      fun b t' _ => t' = .out own ∧ (b = own.held ∧ own.fine) := by
  refine runs_seq (fun _ => .held own) (F := fun _ _ => True)
    (runs_post (runs_acquire fun _ => trivial) fun _ _ _ ht => ⟨ht, trivial⟩) fun _ => ?_
  apply Rules.Judge.look
  intro w T hI hT _ _
  have hkept : LockKept pid live w.data fun j => (T j).own := hI.own
  have hown : (T i).own = own := by rw [hT]; rfl
  have htold := hkept.told hpid (i := i) (by rw [hown]; exact hlive)
  have hfine := hkept.fine i
  rw [hown] at htold hfine
  refine ⟨trivial, fun _ => True, trivial, .const _, Rules.Judge.pre (P := fun _ => True) ?_ fun _ _ => trivial⟩
  have hrest : Runs (lockWatch κ pid live) C i
      (myPid i >>= fun p => release i >>= fun _ => .ret (w.data.locked && w.data.pid == p)) (.held own) (fun _ => True)
      fun b t' _ => t' = .out own ∧ (b = own.held ∧ own.fine) := by
    refine runs_seq (fun _ => .held own) (runs_myPid hC) fun p => ?_
    refine Rules.Judge.known (fun _ _ => trivial) fun hp => ?_
    have hend : Runs (lockWatch κ pid live) C i (.ret (w.data.locked && w.data.pid == p)) (.out own) (fun _ => True)
        fun b t' _ => t' = .out own ∧ (b = own.held ∧ own.fine) := by
      rw [hp]
      exact runs_ret fun _ _ => ⟨rfl, htold, hfine⟩
    exact runs_seq (N := fun _ => True) (fun _ => .out own) (F := fun _ _ => True)
      (runs_post runs_release_held fun _ _ _ ht => ⟨ht, trivial⟩) fun _ => hend
  exact hrest

end Pids

theorem lock_keeps (hproc : ∀ j, j ∈ proc) (hpid : ∀ i j, live i → live j → pid i = pid j → i = j)
    (hC : ∀ l w, C l w → ∀ j, (w.procs j).pid = pid j) :
    (monitor (lockWatch κ pid live) C).Keeps (lockClient proc rounds) fun u => .out u.own where
  call i u c hc := by
    have hlive : u.own.live = true := by
      cases c with
      | release => exact hc.1
      | _ => exact hc
    have hret : ∀ {v : LockUser}, Runs (lockWatch κ pid live) C i (.ret v) (.out v.own) (fun _ => True)
        fun v' t' _ => t' = .out v'.own := fun {v} => runs_ret fun _ _ => rfl
    have hnone : ∀ b : Bool, (none : Option Bool) = some b → ∀ v : Bool, b = v := fun b hb => by cases hb
    cases c with
    | acquire =>
      exact runs_seq (fun _ => .out ({ u with held := true, told := none } : LockUser).own) (F := fun _ _ => True)
        (runs_acquiresleep hC hlive rfl ⟨rfl, fun b hb => hnone b hb _⟩) fun _ => hret
    | release =>
      have hheld : u.own.held = true := hc.2
      exact runs_seq (fun _ => .out ({ u with held := false, told := none } : LockUser).own) (F := fun _ _ => True)
        (runs_releasesleep hproc hheld rfl ⟨rfl, fun b hb => hnone b hb _⟩) fun _ => hret
    | holding =>
      show Runs (lockWatch κ pid live) C i (SleepLock.holdingsleep i >>= fun b => .ret { u with told := some b }) (.out u.own)
        (fun _ => True) fun v t' _ => t' = .out v.own
      refine runs_seq (fun _ => .out u.own) (runs_holdingsleep hC hpid hlive) fun b => runs_ret fun _ hb => ?_
      have htold : (∀ b', some b = some b' → b' = u.held) = ∀ b', u.told = some b' → b' = u.held := by
        apply propext
        refine ⟨fun _ => hb.2, fun _ b' hb' => ?_⟩
        cases hb'
        exact hb.1
      exact congrArg (fun p => Duty.out (LockOwn.mk u.live u.held p)) htold.symm
    | kill pid =>
      exact runs_seq (fun _ => .out u.own) (F := fun _ _ => True) (runs_kill (.inr fun _ => trivial) pid proc) fun _ => hret
    | sleepOn c =>
      exact runs_seq (fun _ => .out u.own) (F := fun _ _ => True)
        (runs_sleepElsewhere (.other c) (fun _ => trivial) (fun _ h => by cases h) trivial) fun _ => hret
    | wakeOn c =>
      exact runs_seq (fun _ => .out u.own) (F := fun _ _ => True) (runs_wakeup_any (.inr fun _ => trivial) (.other c) proc)
        fun _ => hret
  pass _ _ _ _ _ _ _ _ _ _ _ _ h := h.elim

end Code

/-! ### Every run -/

/-- The sections leave the pids alone. -/
def SamePids (_ : Unit) (w w' : World ι (LockChan κ) (SleepLock ι)) : Prop := ∀ j, (w'.procs j).pid = (w.procs j).pid

section Within
variable (i : ι) (proc : List ι) (rounds : Nat)

omit [DecidableEq ι] [DecidableEq κ] in
theorem samePids_framed (w w' : World ι (LockChan κ) (SleepLock ι)) (h : w.Framed w') : SamePids default w w' := h.pid

omit [DecidableEq κ] in
theorem within_waitUnlocked (n : Nat) : (waitUnlocked i n : LockCode ι κ Unit).Within SamePids fun _ => True := by
  induction n with
  | zero => exact trivial
  | succ n ih =>
    refine .bind (within_fetch samePids_framed) fun d => .ite (fun _ => ?_) fun _ => trivial
    exact .bind (within_sleep samePids_framed i _) fun _ => ih

theorem within_lockBody (u : LockUser) (c : LockCall κ) : (c.body proc rounds i u).Within SamePids fun _ => True := by
  have hacquire : (acquire i : LockCode ι κ Unit).Within SamePids fun _ => True := within_acquire samePids_framed i
  have hrelease : (release i : LockCode ι κ Unit).Within SamePids fun _ => True := within_release samePids_framed i
  have hpid : (myPid i : LockCode ι κ Int).Within SamePids fun _ => True := .look _ _ (fun _ _ => rfl) fun _ => trivial
  have hupdate : ∀ f, (update () f : LockCode ι κ Unit).Within SamePids fun _ => True := fun f => .change _ _ fun _ _ => rfl
  cases c with
  | acquire =>
    refine .bind (.bind hacquire fun _ => ?_) fun _ => trivial
    exact .bind (within_waitUnlocked i rounds) fun _ => .bind hpid fun _ => .bind (hupdate _) fun _ => hrelease
  | release =>
    refine .bind (.bind hacquire fun _ => ?_) fun _ => trivial
    exact .bind (hupdate _) fun _ => .bind (within_wakeup samePids_framed _ proc) fun _ => hrelease
  | holding =>
    refine .bind (.bind hacquire fun _ => ?_) fun _ => trivial
    exact .bind (within_fetch samePids_framed) fun _ => .bind hpid fun _ => .bind hrelease fun _ => trivial
  | kill pid => exact .bind (within_kill samePids_framed pid proc) fun _ => trivial
  | sleepOn c => exact .bind (within_sleepElsewhere samePids_framed i _) fun _ => trivial
  | wakeOn c => exact .bind (within_wakeup samePids_framed _ proc) fun _ => trivial

end Within

/-- **Sleep locks**: as long as the processes have different pids, at most one holds the lock;
`holdingsleep` tells each whether it is the one; and while the spin lock is free nobody
sleeps on a lock that is free. -/
theorem sleeplock_held_once {proc : List ι} (hproc : ∀ j, j ∈ proc) (rounds : Nat) (procs : ι → Proc ι (LockChan κ))
    (hchan : ∀ j, (procs j).chan = none) (hpid : ∀ i j, (procs i).state ≠ .unused → (procs j).state ≠ .unused →
      (procs i).pid = (procs j).pid → i = j)
    {g : Config Unit Stop (World ι (LockChan κ) (SleepLock ι)) ι LockUser}
    (h : Reach (lockClient proc rounds) (fun _ _ => True) (lockStarted procs) g) :
    g.shared.data.holders.length ≤ 1 ∧
      (∀ i u, g.thread i = .ret u → (u.held = true ↔ i ∈ g.shared.data.holders) ∧ ∀ b, u.told = some b → b = u.held) ∧
      (g.shared.lk = none → g.shared.data.locked = false → ∀ j, (g.shared.procs j).state = .sleeping →
        (g.shared.procs j).chan ≠ some .lk) := by
  have hidle : ∀ i, ((lockStarted procs).thread i).Within (SamePids (κ := κ)) fun _ => True := fun _ => trivial
  have hrun := (h.keep (fun i u c => within_lockBody i proc rounds u c)
    (P := fun w => ∀ j, (w.procs j).pid = (procs j).pid) (fun _ _ _ hs hw j => (hs j).trans (hw j)) hidle fun _ => rfl).2
  have hstart : LockKept (fun j => (procs j).pid) (fun j => (procs j).state ≠ .unused) ⟨false, 0, []⟩
      fun j => (⟨decide ((procs j).state ≠ .unused), false, none⟩ : LockUser).own := by
    refine ⟨fun _ => rfl, fun hl => (by cases hl), fun i => ?_, fun i hi => of_decide_eq_true hi, fun i b hb => by cases hb⟩
    exact ⟨fun hheld => (by cases hheld), fun hmem => by cases hmem⟩
  obtain ⟨T, hT, htok⟩ := (lock_keeps hproc hpid fun _ _ hw => hw.2).sound (.start hchan hstart) hrun
  have hkept : LockKept (fun j => (procs j).pid) (fun j => (procs j).state ≠ .unused) g.shared.data fun j => (T j).own :=
    hT.own
  refine ⟨?_, fun i u hi => ?_, fun hlk hfree j hs hc => ?_⟩
  · cases hl : g.shared.data.locked with
    | false =>
      rw [hkept.free hl]
      exact Nat.zero_le 1
    | true =>
      obtain ⟨i, hi, -⟩ := hkept.held hl
      rw [hi]
      exact le_refl 1
  · have hholder := hkept.holder i
    have hfine := hkept.fine i
    rw [htok i u hi] at hholder hfine
    exact ⟨hholder, hfine⟩
  · have hlocked := (hT.quiet hlk hs hc).1 rfl
    have hlocked : g.shared.data.locked = true := hlocked
    rw [hfree] at hlocked
    cases hlocked

/-! ### A run -/

instance (proc : List ι) (rounds : Nat) (u : LockUser) :
    (c : LockCall κ) → Decidable ((lockClient proc rounds).enabled u c)
  | .release => inferInstanceAs (Decidable (_ ∧ _))
  | .acquire | .holding | .kill _ | .sleepOn _ | .wakeOn _ => inferInstanceAs (Decidable (u.live = true))

instance (proc : List ι) (rounds : Nat) (u₁ u₂ u₁' u₂' : LockUser) :
    Decidable ((lockClient (κ := κ) proc rounds).pass u₁ u₂ u₁' u₂') := inferInstanceAs (Decidable False)

/-- Two processes, and a slot that the second one has been in before. -/
def twoAndFree (j : Fin 3) : Proc (Fin 3) (LockChan Empty) :=
  if j = 2 then ⟨.unused, none, false, 2, none⟩ else ⟨.running, none, false, j.val + 1, none⟩

/-- The second process sleeps on the lock that the first has and asks about. -/
def contended : List (Move (Fin 3) LockUser (LockCall Empty)) :=
  [.begin 0 .acquire, .acts 0 5, .begin 1 .acquire, .acts 1 6, .begin 0 .holding, .acts 0 4]

theorem sleeplock_held_once_contended : ∃ g, Reach (lockClient [0, 1, 2] 2) (fun _ _ => True) (lockStarted twoAndFree) g ∧
    (g.shared.procs 1).chan = some .lk ∧ (0 : Fin 3) ∈ g.shared.data.holders ∧ g.shared.data.holders.length ≤ 1 := by
  have hplay : ∃ g, Reach (lockClient [0, 1, 2] 2) (fun _ _ => True) (lockStarted twoAndFree) g ∧
      ((g.shared.procs 1).chan = some .lk ∧ (0 : Fin 3) ∈ g.shared.data.holders) := Reach.of_play contended (by decide +kernel)
  obtain ⟨g, hg, hchan, hheld⟩ := hplay
  have honce := (sleeplock_held_once (by decide) 2 twoAndFree (by decide) (by decide) hg).1
  exact ⟨g, hg, hchan, hheld, honce⟩

end Farron
