import Farron.Kernel.Sleep
import Farron.Resumption.Alone

/-! Waiting for a DMA transfer, from `kernel/dmac.c`.

`dmac_wait_idle` finds the channel busy, then takes `p->lock` and sleeps without another look. If
the `wakeup` of the interrupt comes to the process in between, nobody wakes it again
(`not_dmac_wakes`); if it never does, nobody sleeps on when the interrupt has been served
(`dmac_wakes`). A busy channel becomes idle once, and raises one interrupt then. -/
namespace Farron
open Resumption
variable {ι : Type} [DecidableEq ι]

/-- The interrupt of the transfer. -/
inductive Irq
  | none
  | raised
  | serving
  | served
  deriving DecidableEq

/-- `busy` is the channel's bit of `chen`. `tested` is history, read by no function: the processes that
have found it set and have not yet taken their `p->lock`. -/
structure Dmac (ι : Type) where
  busy : Bool
  irq : Irq
  tested : ι → Bool

/-- `visit j`: `wakeup` looks at process `j`. -/
inductive DmacLabel (ι : Type)
  | plain
  | visit (j : ι)

instance : Inhabited (DmacLabel ι) := ⟨.plain⟩

/-- The channel `dmac_chan` is the only one. -/
abbrev DmacCode (ι : Type) := Kernel (DmacLabel ι) ι Unit (Dmac ι)

namespace Dmac
variable (d : Dmac ι) (i : ι)

/-- Process `i` has seen the channel's bit. -/
def test : Dmac ι := { d with tested := Function.update d.tested i d.busy }

/-- Process `i` has taken its lock. -/
def settle : Dmac ι := { d with tested := Function.update d.tested i false }

end Dmac

section Code
variable (i : ι)

def dmacIsIdle : DmacCode ι Bool :=
  .act .plain (fun w => some { w with data := w.data.test i }) fun w => .ret (!w.data.busy)

def dmacWaitIdle : Nat → DmacCode ι Unit
  | 0 => .stop .spin
  | n + 1 => do
    if ← dmacIsIdle i then return
    else
      acquireProc i
      update .plain (·.settle i)
      -- `sleep` on `p->lock` itself
      slumber i ()
      dmacWaitIdle n

/-- `wakeup`, with its sections labelled. -/
def visits : List ι → DmacCode ι Unit
  | [] => return
  | j :: rest =>
    .act (.visit j) (fun w => if (w.procs j).lock = none then some (w.setProc j (Proc.wake ())) else none)
      fun _ => visits rest

theorem visits_wakeup (l : List ι) : (visits l).relabel (fun _ => ()) = (wakeup () l : Kernel Unit ι Unit (Dmac ι) Unit) := by
  induction l with
  | nil => rfl
  | cons j l ih =>
    exact congrArg (Prog.act () _) (funext fun _ => ih)

/-- A hart takes the interrupt, clears it and wakes the waiters. -/
def dmacIntr (proc : List ι) : DmacCode ι Unit := do
  .act .plain (fun w => if w.data.irq = .raised then some { w with data := { w.data with irq := .serving } } else none)
    fun _ => .ret ()
  visits proc
  update .plain ({ · with irq := .served })

/-- The transfer ends. -/
def transferEnds : DmacCode ι Unit := do
  .act .plain (fun w => if w.data.busy = true then some { w with data := { w.data with busy := false } } else none)
    fun _ => .ret ()
  update .plain ({ · with irq := .raised })

end Code

/-! ### The system -/

inductive DmacActor (ι : Type)
  | proc (i : ι)
  | device
  | handler
  deriving DecidableEq

def DmacActor.body (proc : List ι) (rounds : Nat) : DmacActor ι → DmacCode ι Unit
  | .proc i => dmacWaitIdle i rounds
  | .device => transferEnds
  | .handler => dmacIntr proc

def dmacClient (proc : List ι) (rounds : Nat) :
    Client (DmacLabel ι) Stop (World ι Unit (Dmac ι)) (DmacActor ι) Unit Unit where
  enabled _ _ := True
  body a _ _ := a.body proc rounds
  pass _ _ _ _ := False

/-- A transfer is on its way. -/
def dmacStarted (procs : ι → Proc ι Unit) : Config (DmacLabel ι) Stop (World ι Unit (Dmac ι)) (DmacActor ι) Unit where
  shared := ⟨procs, none, ⟨true, .none, fun _ => false⟩⟩
  thread _ := .ret ()

/-- Process `i` sleeps on `dmac_chan`. -/
def DmacAsleep (w : World ι Unit (Dmac ι)) (i : ι) : Prop := (w.procs i).state = .sleeping ∧ (w.procs i).chan = some ()

/-- The condition on a run: `wakeup` does not come between a process's test and its lock. -/
def DmacLabel.careful (w : World ι Unit (Dmac ι)) : DmacLabel ι → Prop
  | .plain => True
  | .visit j => w.data.tested j = false

/-! ### The invariant -/

/-- What an actor knows: a process that it has found the channel busy, and that it is about to sleep, with
its lock; the device and the handler where the interrupt is, and the handler whom it has yet
to wake. -/
structure DmacSeat (ι : Type) where
  found : Bool
  doze : Bool
  sure : Bool
  left : List ι

namespace DmacSeat

def idle : DmacSeat ι := ⟨false, false, false, []⟩

def finding : DmacSeat ι := ⟨true, false, false, []⟩

def dozing : DmacSeat ι := ⟨false, true, false, []⟩

def calling (l : List ι) : DmacSeat ι := ⟨false, false, true, l⟩

end DmacSeat

/-- The interrupt will come to process `i`. -/
def Comes (w : World ι Unit (Dmac ι)) (left : List ι) (i : ι) : Prop :=
  w.data.irq = .none ∨ w.data.irq = .raised ∨ w.data.irq = .serving ∧ i ∈ left

/-- Whoever sleeps, or is about to, will be woken. -/
structure DmacKept (w : World ι Unit (Dmac ι)) (T : DmacActor ι → DmacSeat ι) : Prop where
  found : ∀ i, (T (.proc i)).found = true → w.data.tested i = true
  lock : ∀ i, (T (.proc i)).doze = true → (w.procs i).lock = some i
  busy : w.data.busy = true → w.data.irq = .none
  ended : (T .device).sure = true → w.data.busy = false ∧ w.data.irq = .none
  serving : (T .handler).sure = true → w.data.irq = .serving
  waiting : ∀ i, DmacAsleep w i ∨ (T (.proc i)).doze = true ∨ w.data.tested i = true → Comes w (T .handler).left i

section Proofs
variable {w : World ι Unit (Dmac ι)} {T : DmacActor ι → DmacSeat ι}

/-- A section of process `i`. -/
theorem DmacKept.own (h : DmacKept w T) {i : ι} {f : Proc ι Unit → Proc ι Unit} {tested : ι → Bool} {t : DmacSeat ι}
    (hothers : ∀ j, j ≠ i → tested j = w.data.tested j) (hfound : t.found = true → tested i = true)
    (hlock : t.doze = true → (f (w.procs i)).lock = some i)
    (hwait : (f (w.procs i)).state = .sleeping ∧ (f (w.procs i)).chan = some () ∨ t.doze = true ∨ tested i = true →
      w.data.irq = .none ∨ DmacAsleep w i ∨ (T (.proc i)).doze = true ∨ w.data.tested i = true) :
    DmacKept { w.setProc i f with data := { w.data with tested := tested } } (Function.update T (.proc i) t) := by
  have hdevice : Function.update T (.proc i) t .device = T .device := Function.update_of_ne (by exact fun h => by cases h) ..
  have hhandler : Function.update T (.proc i) t .handler = T .handler := Function.update_of_ne (by exact fun h => by cases h) ..
  have hother : ∀ j, j ≠ i → Function.update T (.proc i) t (.proc j) = T (.proc j) := fun j hji =>
    Function.update_of_ne (by exact fun h => hji (by cases h; rfl)) ..
  refine ⟨fun j hj => ?_, fun j hj => ?_, h.busy, fun he => ?_, fun he => ?_, fun j hj => ?_⟩
  · by_cases hji : j = i
    · subst hji
      rw [Function.update_self] at hj
      exact hfound hj
    · rw [hother j hji] at hj
      show tested j = true
      rw [hothers j hji]
      exact h.found j hj
  · show ((w.setProc i f).procs j).lock = some j
    by_cases hji : j = i
    · subst hji
      rw [Function.update_self] at hj
      rw [World.setProc_same]
      exact hlock hj
    · rw [hother j hji] at hj
      rw [World.setProc_ne _ _ _ _ hji]
      exact h.lock j hj
  · rw [hdevice] at he
    exact h.ended he
  · rw [hhandler] at he
    exact h.serving he
  · rw [hhandler]
    unfold DmacAsleep at hj
    by_cases hji : j = i
    · subst hji
      simp only [Function.update_self, World.setProc_same] at hj
      obtain hnone | hold := hwait hj
      · exact .inl hnone
      · exact h.waiting j hold
    · simp only [hother j hji, World.setProc_ne _ _ _ _ hji, hothers j hji] at hj
      exact h.waiting j hj

/-! ### The actors -/

/-- The rules. -/
abbrev Waits {α : Type} (a : DmacActor ι) (p : DmacCode ι α) (t : DmacSeat ι) (Q : α → DmacSeat ι → Prop) : Prop :=
  Triple DmacKept (fun l w => l.careful w) (fun _ _ => True) (fun _ => True) a p t Q

/-- A section of process `i` on itself. -/
theorem waits_self {i : ι} {l : DmacLabel ι} {t u : DmacSeat ι} {f : World ι Unit (Dmac ι) → Option (World ι Unit (Dmac ι))}
    (hfound : u.found = true → t.found = true)
    (hf : ∀ w w', f w = some w' → ∃ g, w' = w.setProc i g ∧
      (u.doze = true → (g (w.procs i)).lock = some i ∨ t.doze = true ∧ (g (w.procs i)).lock = (w.procs i).lock) ∧
      ((g (w.procs i)).state = .sleeping ∧ (g (w.procs i)).chan = some () ∨ u.doze = true →
        DmacAsleep w i ∨ t.doze = true ∨ t.found = true)) :
    Waits (.proc i) (.act l f fun _ => .ret ()) t fun _ t₁ => t₁ = u := by
  apply Triple.act
  intro w T w' hI hT _ hfw
  obtain ⟨g, rfl, hlock, hwait⟩ := hf w w' hfw
  have hdoze : t.doze = true → (T (.proc i)).doze = true := fun hd => by rw [hT]; exact hd
  have hseen : t.found = true → w.data.tested i = true := fun hd => hI.found i (by rw [hT]; exact hd)
  refine ⟨trivial, u, hI.own (fun _ _ => rfl) (fun hd => hseen (hfound hd)) (fun hd => ?_) fun hs => .inr ?_, rfl⟩
  · obtain he | ⟨hd, he⟩ := hlock hd
    · exact he
    · rw [he]
      exact hI.lock i (hdoze hd)
  · have hcome : DmacAsleep w i ∨ t.doze = true ∨ t.found = true →
        DmacAsleep w i ∨ (T (.proc i)).doze = true ∨ w.data.tested i = true := fun h => h.imp id fun h => h.imp hdoze hseen
    obtain hs | hd | ht := hs
    · exact hcome (hwait (.inl hs))
    · exact hcome (hwait (.inr hd))
    · exact .inr (.inr ht)

theorem waits_slumber (i : ι) : Waits (.proc i) (slumber i ()) .dozing fun _ t => t = (.idle : DmacSeat ι) := by
  refine Triple.bind (waits_self (u := .dozing) id fun w w' hf => ?_) fun _ t ht => ?_
  · cases hf
    exact ⟨_, rfl, fun hd => .inr ⟨hd, rfl⟩, fun _ => .inr (.inl rfl)⟩
  subst ht
  refine Triple.bind (waits_self (u := .idle) id fun w w' hf => ?_) fun _ t ht => ?_
  · cases hf
    exact ⟨_, rfl, fun hd => (by cases hd), fun _ => .inr (.inl rfl)⟩
  subst ht
  refine Triple.bind (waits_self (u := .idle) id fun w w' hf => ?_) fun _ t ht => ?_
  · by_cases hfree : (w.procs i).lock = none ∧ (w.procs i).state = .runnable
    · rw [if_pos hfree] at hf
      cases hf
      exact ⟨_, rfl, fun hd => (by cases hd), fun hs => hs.elim (fun h => by cases h.1) fun h => by cases h⟩
    · rw [if_neg hfree] at hf
      cases hf
  subst ht
  refine Triple.bind (waits_self (u := .idle) id fun w w' hf => ?_) fun _ t ht => ?_
  · cases hf
    exact ⟨_, rfl, fun hd => (by cases hd), fun hs => hs.elim (fun h => by cases h.2) fun h => by cases h⟩
  subst ht
  refine waits_self id fun w w' hf => ?_
  cases hf
  exact ⟨_, rfl, fun hd => (by cases hd), fun hs => hs.elim .inl fun h => by cases h⟩

/-- A section of process `i` on the history only. -/
theorem DmacKept.history (h : DmacKept w T) {i : ι} {b : Bool} {t : DmacSeat ι} (hfound : t.found = true → b = true)
    (hdoze : t.doze = true → (T (.proc i)).doze = true)
    (hwait : t.doze = true ∨ b = true → w.data.irq = .none ∨ (T (.proc i)).doze = true) :
    DmacKept { w with data := { w.data with tested := Function.update w.data.tested i b } } (Function.update T (.proc i) t) := by
  have hothers : ∀ j, j ≠ i → Function.update w.data.tested i b j = w.data.tested j := fun j hj => Function.update_of_ne hj ..
  have hown := h.own (i := i) (f := id) (t := t) hothers (by rw [Function.update_self]; exact hfound)
    (fun hd => h.lock i (hdoze hd)) (by
      rw [Function.update_self]
      rintro (hs | hd | hb)
      · exact .inr (.inl hs)
      · exact (hwait (.inl hd)).imp id fun h => .inr (.inl h)
      · exact (hwait (.inr hb)).imp id fun h => .inr (.inl h))
  unfold World.setProc at hown
  rw [id, Function.update_eq_self] at hown
  exact hown

theorem waits_dmacIsIdle (i : ι) :
    Waits (.proc i) (dmacIsIdle i) .idle fun b t => t = if b = true then .idle else (.finding : DmacSeat ι) := by
  apply Triple.act
  intro w T w' hI hT _ hf
  cases hf
  cases hb : w.data.busy with
  | false =>
    refine ⟨trivial, .idle, ?_, Triple.ret rfl⟩
    exact hI.history (fun h => by cases h) (fun h => by cases h) fun h => h.elim (fun h => by cases h) fun h => by
      rw [hb] at h
      cases h
  | true =>
    refine ⟨trivial, .finding, ?_, Triple.ret rfl⟩
    exact hI.history (fun _ => hb) (fun h => by cases h) fun _ => .inl (hI.busy hb)

/-- Between the test and the lock the process relies on `tested`; from then on, on its lock. -/
theorem waits_dmacWaitIdle (i : ι) (n : Nat) : Waits (.proc i) (dmacWaitIdle i n) .idle fun _ t => t = (.idle : DmacSeat ι) := by
  induction n with
  | zero => exact Triple.stop trivial
  | succ n ih =>
    refine Triple.bind (waits_dmacIsIdle i) fun b t ht => ?_
    subst ht
    cases b with
    | true => exact Triple.ret rfl
    | false =>
      refine Triple.bind (waits_self (u := ⟨true, true, false, []⟩) (fun _ => rfl) fun w w' hf => ?_) fun _ t ht => ?_
      · by_cases hfree : (w.procs i).lock = none
        · rw [if_pos hfree] at hf
          cases hf
          exact ⟨_, rfl, fun _ => .inl rfl, fun _ => .inr (.inr rfl)⟩
        · rw [if_neg hfree] at hf
          cases hf
      subst ht
      refine Triple.bind (Q := fun _ t => t = .dozing) ?_ fun _ t ht => ?_
      · apply Triple.act
        intro w T w' hI hT _ hf
        cases hf
        have hdoze : (T (.proc i)).doze = true := by rw [hT]
        exact ⟨trivial, .dozing, hI.history (fun h => by cases h) (fun _ => hdoze) fun _ => .inr hdoze, Triple.ret rfl⟩
      subst ht
      refine Triple.bind (waits_slumber i) fun _ t ht => ?_
      subst ht
      exact ih

/-- The handler wakes those it has yet to wake. -/
theorem waits_visits (l : List ι) :
    Waits .handler (visits l) (.calling l) fun _ t => t = .calling [] := by
  induction l with
  | nil => exact Triple.ret rfl
  | cons j l ih =>
    apply Triple.act
    intro w T w' hI hT hC hf
    by_cases hfree : (w.procs j).lock = none
    · rw [if_pos hfree] at hf
      cases hf
      have hproc : ∀ i, Function.update T .handler (DmacSeat.calling l) (.proc i) = T (.proc i) := fun i =>
        Function.update_of_ne (by exact fun h => by cases h) ..
      have hlock : ∀ i, ((w.setProc j (Proc.wake ())).procs i).lock = (w.procs i).lock := by
        intro i
        by_cases hij : i = j
        · subst hij
          rw [World.setProc_same]
          unfold Proc.wake
          split_ifs
          · rfl
          · rfl
        · rw [World.setProc_ne _ _ _ _ hij]
      have hserving : w.data.irq = .serving := hI.serving (by rw [hT]; rfl)
      refine ⟨trivial, .calling l, ⟨fun i hi => ?_, fun i hi => ?_, hI.busy, fun he => ?_, fun _ => hserving, fun i hi => ?_⟩, ih⟩
      · rw [hproc] at hi
        exact hI.found i hi
      · rw [hproc] at hi
        rw [hlock]
        exact hI.lock i hi
      · rw [Function.update_of_ne (by exact fun h => by cases h)] at he
        exact hI.ended he
      · rw [hproc] at hi
        rw [Function.update_self]
        have hwake : (DmacAsleep w i ∨ (T (.proc i)).doze = true ∨ w.data.tested i = true) ∧ i ≠ j := by
          by_cases hij : i = j
          · subst hij
            exfalso
            obtain hs | hd | ht := hi
            · unfold DmacAsleep at hs
              rw [World.setProc_same] at hs
              unfold Proc.wake at hs
              split_ifs at hs with hw
              · cases hs.1
              · exact hw hs
            · have := hI.lock i hd
              rw [hfree] at this
              cases this
            · have hclear : w.data.tested i = false := hC
              have ht : w.data.tested i = true := ht
              rw [hclear] at ht
              cases ht
          · refine ⟨?_, hij⟩
            unfold DmacAsleep at hi
            rw [World.setProc_ne _ _ _ _ hij] at hi
            exact hi
        obtain hn | hr | ⟨hs, hmem⟩ := hI.waiting i hwake.1
        · exact .inl hn
        · exact .inr (.inl hr)
        · rw [hT] at hmem
          exact .inr (.inr ⟨hs, (List.mem_cons.mp hmem).resolve_left hwake.2⟩)
    · rw [if_neg hfree] at hf
      cases hf

/-- A section of the device or the handler on the interrupt. -/
theorem DmacKept.interrupt (h : DmacKept w T) {a : DmacActor ι} {t : DmacSeat ι} {busy : Bool} {irq : Irq} (ha : ∀ i, a ≠ .proc i)
    (hbusy : busy = true → irq = .none) (hended : (Function.update T a t .device).sure = true → busy = false ∧ irq = .none)
    (hserving : (Function.update T a t .handler).sure = true → irq = .serving)
    (hwait : ∀ i, Comes w (T .handler).left i →
      irq = .none ∨ irq = .raised ∨ irq = .serving ∧ i ∈ (Function.update T a t .handler).left) :
    DmacKept { w with data := { w.data with busy := busy, irq := irq } } (Function.update T a t) := by
  have hproc : ∀ i, Function.update T a t (.proc i) = T (.proc i) := fun i => Function.update_of_ne (Ne.symm (ha i)) ..
  refine ⟨fun i hi => ?_, fun i hi => ?_, hbusy, hended, hserving, fun i hi => ?_⟩
  · rw [hproc] at hi
    exact h.found i hi
  · rw [hproc] at hi
    exact h.lock i hi
  · rw [hproc] at hi
    exact hwait i (h.waiting i hi)

theorem waits_dmacIntr {proc : List ι} (hproc : ∀ j, j ∈ proc) :
    Waits .handler (dmacIntr proc) .idle fun _ t => t = (.idle : DmacSeat ι) := by
  have hdevice : ∀ (T : DmacActor ι → DmacSeat ι) t, Function.update T .handler t .device = T .device := fun T t =>
    Function.update_of_ne (by exact fun h => by cases h) ..
  refine Triple.bind (Q := fun _ t => t = .calling proc) ?_ fun _ t ht => ?_
  · apply Triple.act
    intro w T w' hI hT _ hf
    by_cases hr : w.data.irq = .raised
    · rw [if_pos hr] at hf
      cases hf
      refine ⟨trivial, .calling proc, hI.interrupt (fun i h => by cases h) (fun hb => ?_) (fun he => ?_) (fun _ => rfl)
        (fun i _ => ?_), Triple.ret rfl⟩
      · have := hI.busy hb
        rw [hr] at this
        cases this
      · rw [hdevice] at he
        have := (hI.ended he).2
        rw [hr] at this
        cases this
      · rw [Function.update_self]
        exact .inr (.inr ⟨rfl, hproc i⟩)
    · rw [if_neg hr] at hf
      cases hf
  subst ht
  refine Triple.bind (waits_visits proc) fun _ t ht => ?_
  subst ht
  apply Triple.act
  intro w T w' hI hT _ hf
  cases hf
  have hserving : w.data.irq = .serving := hI.serving (by rw [hT]; rfl)
  refine ⟨trivial, .idle, hI.interrupt (fun i h => by cases h) (fun hb => ?_) (fun he => ?_) (fun hs => ?_) (fun i hi => ?_),
    Triple.ret rfl⟩
  · have := hI.busy hb
    rw [hserving] at this
    cases this
  · rw [hdevice] at he
    have := (hI.ended he).2
    rw [hserving] at this
    cases this
  · rw [Function.update_self] at hs
    cases hs
  · -- nobody is left to be woken
    unfold Comes at hi
    rw [hserving, hT] at hi
    obtain hn | hr | ⟨-, hmem⟩ := hi
    · cases hn
    · cases hr
    · cases hmem

theorem waits_transferEnds : Waits .device transferEnds .idle fun _ t => t = (.idle : DmacSeat ι) := by
  have hhandler : ∀ (T : DmacActor ι → DmacSeat ι) t, Function.update T .device t .handler = T .handler := fun T t =>
    Function.update_of_ne (by exact fun h => by cases h) ..
  refine Triple.bind (Q := fun _ t => t = ⟨false, false, true, []⟩) ?_ fun _ t ht => ?_
  · apply Triple.act
    intro w T w' hI hT _ hf
    by_cases hb : w.data.busy = true
    · rw [if_pos hb] at hf
      cases hf
      have hnone := hI.busy hb
      refine ⟨trivial, ⟨false, false, true, []⟩, hI.interrupt (fun i h => by cases h) (fun h => by cases h)
        (fun _ => ⟨rfl, hnone⟩) (fun hs => ?_) (fun i _ => .inl hnone), Triple.ret rfl⟩
      rw [hhandler] at hs
      exact hI.serving hs
    · rw [if_neg hb] at hf
      cases hf
  subst ht
  apply Triple.act
  intro w T w' hI hT _ hf
  cases hf
  obtain ⟨hidle, hnone⟩ := hI.ended (by rw [hT])
  refine ⟨trivial, .idle, hI.interrupt (fun i h => by cases h) (fun hb => ?_) (fun he => ?_) (fun hs => ?_)
    (fun i _ => .inr (.inl rfl)), Triple.ret rfl⟩
  · rw [hidle] at hb
    cases hb
  · rw [Function.update_self] at he
    cases he
  · rw [hhandler] at hs
    have := hI.serving hs
    rw [hnone] at this
    cases this

end Proofs

/-- Process `i` sleeps on, though the channel is idle and its interrupt has been served. -/
def DmacStuck (w : World ι Unit (Dmac ι)) (i : ι) : Prop := DmacAsleep w i ∧ w.data.busy = false ∧ w.data.irq = .served

/-- **Nobody sleeps on** in the runs in which `wakeup` never comes to a process between its
test of the channel and its lock. -/
theorem dmac_wakes {proc : List ι} (hproc : ∀ j, j ∈ proc) (rounds : Nat) (procs : ι → Proc ι Unit)
    {g : Config (DmacLabel ι) Stop (World ι Unit (Dmac ι)) (DmacActor ι) Unit} (h : Reach (dmacClient proc rounds) (fun l w => l.careful w) (dmacStarted procs) g) (i : ι) :
    ¬ DmacStuck g.shared i := by
  have hstart : Covered DmacKept (fun l w => l.careful w) (fun _ _ => True) (fun _ => True) (fun _ t => t = .idle)
      (dmacStarted procs) := by
    refine ⟨fun _ => .idle, ⟨fun i hi => (by cases hi), fun i hi => (by cases hi), fun _ => rfl, fun he => (by cases he),
      fun he => (by cases he), fun i _ => .inl rfl⟩, fun _ => Triple.ret rfl⟩
  have hcall : ∀ (a : DmacActor ι) (l : Unit) (c : Unit) (t : DmacSeat ι), (dmacClient proc rounds).enabled l c → t = .idle →
      Triple DmacKept (fun l w => l.careful w) (fun _ _ => True) (fun _ => True) a ((dmacClient proc rounds).body a l c) t
        fun _ t => t = .idle := by
    intro a l c t _ ht
    subst ht
    cases a with
    | proc i => exact waits_dmacWaitIdle i rounds
    | device => exact waits_transferEnds
    | handler => exact waits_dmacIntr hproc
  obtain ⟨T, hI, -⟩ := Reach.sound hcall (fun _ _ _ _ _ _ _ _ _ _ _ _ hp => hp.elim) hstart h
  rintro ⟨hs, -, hserved⟩
  have hcomes := hI.waiting i (.inl hs)
  unfold Comes at hcomes
  rw [hserved] at hcomes
  obtain hn | hr | ⟨hv, -⟩ := hcomes
  · cases hn
  · cases hr
  · cases hv

/-! ### Runs -/

instance (l : DmacLabel ι) (w : World ι Unit (Dmac ι)) : Decidable (l.careful w) :=
  match l with
  | .plain => inferInstanceAs (Decidable True)
  | .visit j => inferInstanceAs (Decidable (w.data.tested j = false))

instance (proc : List ι) (rounds : Nat) (l c : Unit) : Decidable ((dmacClient proc rounds).enabled l c) :=
  inferInstanceAs (Decidable True)

instance (proc : List ι) (rounds : Nat) (l₁ l₂ l₁' l₂' : Unit) : Decidable ((dmacClient proc rounds).pass l₁ l₂ l₁' l₂') :=
  inferInstanceAs (Decidable False)

instance (w : World ι Unit (Dmac ι)) (i : ι) : Decidable (DmacStuck w i) :=
  inferInstanceAs (Decidable ((_ ∧ _) ∧ _ ∧ _))

def waiterProc (_ : Fin 1) : Proc (Fin 1) Unit := ⟨.running, none, false, 1, none⟩

/-- The transfer ends and its interrupt is served after the process has found the channel busy. -/
def missed : List (Move (DmacActor (Fin 1)) Unit Unit) :=
  [.begin (.proc 0) (), .acts (.proc 0) 1, .begin .device (), .acts .device 2, .begin .handler (), .acts .handler 3,
    .acts (.proc 0) 4]

theorem not_dmac_wakes : ¬ ∀ g, Reach (dmacClient [0] 2) (fun _ _ => True) (dmacStarted waiterProc) g →
    ∀ i, ¬ DmacStuck g.shared i := by
  intro h
  have hplay : ∃ g, Reach (dmacClient [0] 2) (fun _ _ => True) (dmacStarted waiterProc) g ∧ DmacStuck g.shared 0 :=
    Reach.of_play missed (by decide +kernel)
  obtain ⟨g, hg, hstuck⟩ := hplay
  exact h g hg 0 hstuck

/-- The process is asleep by then. -/
def wokenUp : List (Move (DmacActor (Fin 1)) Unit Unit) :=
  [.begin (.proc 0) (), .acts (.proc 0) 5, .begin .device (), .acts .device 2, .begin .handler (), .acts .handler 3]

theorem dmac_wakes_wokenUp : ∃ g, Reach (dmacClient [0] 2) (fun l w => l.careful w) (dmacStarted waiterProc) g ∧
    g.shared.data.irq = .served ∧ (g.shared.procs 0).state = .runnable ∧ ¬ DmacStuck g.shared 0 := by
  have hplay : ∃ g, Reach (dmacClient [0] 2) (fun l w => l.careful w) (dmacStarted waiterProc) g ∧
      (g.shared.data.irq = .served ∧ (g.shared.procs 0).state = .runnable) := Reach.of_play wokenUp (by decide +kernel)
  obtain ⟨g, hg, hserved, hstate⟩ := hplay
  exact ⟨g, hg, hserved, hstate, dmac_wakes (by decide) 2 waiterProc hg 0⟩

end Farron
