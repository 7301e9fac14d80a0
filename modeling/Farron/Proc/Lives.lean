import Farron.Proc.Sections

/-! The sections that give a process a parent, or end it.

`fork` fills an unused slot, `reparent` gives a child to `init`, `exit` leaves a zombie and `wait`
frees it; a failed `fork` frees the slot it had found. -/
namespace Farron.Harts
open Resumption
variable {H ι κ : Type} [DecidableEq H] [DecidableEq ι] [DecidableEq κ]
variable {init : ι} {m : Machine H ι κ} {T : Thread H ι → Token ι κ} {p q : ι}
variable {held : List (Lock ι κ)} {rs : List (Int × Int)}

omit [DecidableEq H] [DecidableEq κ] in
/-- What a process that fills a slot knows. -/
theorem Inv.forking (h : Inv init m T) {mode : Mode ι} {stage : Stage}
    (hT : T (.proc p) = ⟨mode, held, .forking q stage, rs⟩) :
    mode = .run ∧ .proc q ∈ held ∧ (m.procs q).state = .unused ∧ (stage ≠ .found → m.fresh q = true) ∧
      (stage = .linked → (m.procs q).parent = some p) := by
  have ht := h.family.task p
  rw [hT] at ht
  cases ht with
  | none task => cases task
  | waiting scanned child task => cases task
  | exiting parent orphaned child task => cases task
  | forking q' stage' task mode held state context parent =>
    cases task
    exact ⟨mode, held, state, context, parent⟩

omit [DecidableEq H] [DecidableEq κ] in
/-- The lock of a process that runs is its own. -/
theorem Inv.one_runner (h : Inv init m T) (hx : m.exec m.hart = .proc p) {r : ι} (hrun : (T (.proc r)).mode = .run)
    {l : Lock ι κ} (hl : l ∈ (T (.proc r)).held) (hp : l ∈ (T (.proc p)).held) : r = p := by
  obtain ⟨_, hr, he⟩ := h.handOver.run_state hrun
  have := h.handOver.one_holder (h := hr) (g := m.hart) (l := l) (by rw [he]; exact hl) (by rw [hx]; exact hp)
  rw [this, hx] at he
  cases he
  rfl

omit [DecidableEq H] [DecidableEq κ] in
/-- A slot that is filled has no parent before it is linked. -/
theorem Inv.unborn (h : Inv init m T) (hx : m.exec m.hart = .proc p) {stage : Stage}
    (hT : T (.proc p) = ⟨.run, held, .forking q stage, rs⟩) (hstage : stage ≠ .linked) : (m.procs q).parent = none := by
  obtain ⟨_, hq, hstate, _⟩ := h.forking hT
  cases hpar : (m.procs q).parent with
  | none => rfl
  | some r =>
    have htask := h.family.newborn r q hstate hpar
    have hr := h.family.task r
    cases hr with
    | none task => rw [htask] at task; cases task
    | waiting scanned child task => rw [htask] at task; cases task
    | exiting parent orphaned child task => rw [htask] at task; cases task
    | forking q' stage' task mode held' =>
      rw [htask] at task
      cases task
      have := h.one_runner hx mode held' (by rw [hT]; exact hq)
      subst this
      rw [hT] at htask
      cases htask
      exact absurd rfl hstage

omit [DecidableEq H] [DecidableEq κ] in
/-- The slot that a process fills is not its own. -/
theorem Inv.forking_other (h : Inv init m T) {stage : Stage}
    (hT : T (.proc p) = ⟨.run, held, .forking q stage, rs⟩) : Thread.proc (H := H) p ≠ .proc q := by
  intro he
  cases he
  obtain ⟨_, _, hstate, _⟩ := h.forking hT
  rw [(h.handOver.run_state (p := p) (by rw [hT])).1] at hstate
  cases hstate

omit [DecidableEq H] [DecidableEq κ] in
/-- The machine after a section that changes one process. -/
theorem Settled.setProc {f : Proc ι κ → Proc ι κ} (h : Settled (m.procs q) (f (m.procs q))) (r : ι) :
    Settled (m.procs r) ((m.setProc q f).procs r) := by
  by_cases hr : r = q
  · subst hr
    show Settled _ (Function.update m.procs r _ r)
    rw [Function.update_self]
    exact h
  · show Settled _ (Function.update m.procs q _ r)
    rw [Function.update_of_ne hr]
    exact .refl _

omit [DecidableEq κ] in
/-- `fork` has made the context. -/
theorem Inv.made (h : Inv init m T) (hx : m.exec m.hart = .proc p)
    (hT : T (.proc p) = ⟨.run, held, .forking q .found, rs⟩) :
    Inv init { m with fresh := Function.update m.fresh q true }
      (Function.update T (.proc p) ⟨.run, held, .forking q .made, rs⟩) := by
  obtain ⟨_, hq, hstate, _⟩ := h.forking hT
  have hH : HandOver { m with fresh := Function.update m.fresh q true }
      (Function.update T (.proc p) ⟨.run, held, .forking q .found, rs⟩) := by
    rw [← hT, Function.update_eq_self]
    exact h.handOver.setFresh hstate
  refine h.quiet hT (hH.retask rfl rfl) rfl (fun r q' s hr hs => ?_) rfl rfl h.ledger.nextpid ?_ fun _ hk => nomatch hk
  · -- another slot, whose lock is held by another process
    have hqq : q' ≠ q := by
      rintro rfl
      cases h.family.task r with
      | none task => rw [hs] at task; cases task
      | waiting scanned child task => rw [hs] at task; cases task
      | exiting parent orphaned child task => rw [hs] at task; cases task
      | forking _ _ task mode held' =>
        rw [hs] at task
        cases task
        exact hr (congrArg Thread.proc (h.one_runner hx mode held' (by rw [hT]; exact hq)))
    exact Function.update_of_ne hqq _ _
  · rintro _ ⟨⟩ _
    exact .forking q .made rfl rfl hq hstate (fun _ => Function.update_self ..) fun hs => nomatch hs

omit [DecidableEq κ] in
/-- `fork` sets the parent. -/
theorem Inv.link (h : Inv init m T) (hx : m.exec m.hart = .proc p)
    (hT : T (.proc p) = ⟨.run, held, .forking q .made, rs⟩) :
    Inv init (m.setProc q fun x => { x with parent := some p })
      (Function.update T (.proc p) ⟨.run, held, .forking q .linked, rs⟩) := by
  obtain ⟨_, hq, hstate, hcontext, _⟩ := h.forking hT
  have hnone := h.unborn hx hT fun hs => nomatch hs
  have hq' : .proc q ∈ (T (.proc p)).held := by
    rw [hT]
    exact hq
  have hH := h.handOver.touch (f := fun x => { x with parent := some p }) hx (by rw [hT]; exact .inr rfl) hq' (.inl rfl)
  have hself : (m.setProc q fun x => { x with parent := some p }).procs q = { m.procs q with parent := some p } :=
    Function.update_self ..
  rw [← Function.update_eq_self (.proc p) T] at hH
  refine ⟨hH.retask (by rw [hT]) (by rw [hT]), ?_, ?_⟩
  · refine h.family.change h.handOver hx (by rw [hT]) hq' rfl rfl ?_ (fun _ r hr => ?_) ?_ fun _ _ hk => ?_
    · refine ⟨fun r _ hrp hr => ?_, fun r _ hr => ?_, fun hr => ?_, fun hs => .inl hs, fun hs => ?_, fun _ _ hn => (nomatch hn),
        fun ha => ha⟩
      · exact absurd (Option.some.inj hr).symm hrp
      · rw [hnone] at hr
        cases hr
      · rw [hnone] at hr
        cases hr
      · exact .inl hs
    · exact ⟨(Option.some.inj hr).symm, rfl⟩
    · refine .forking q .linked rfl rfl hq ?_ (fun _ => hcontext fun hs => nomatch hs) fun _ => ?_
      · rw [hself]
        exact hstate
      · rw [hself]
    · rw [hT] at hk
      cases hk
  · exact h.ledger.settled (Settled.setProc ⟨Iff.rfl, fun _ => ⟨rfl, rfl⟩, id⟩) rfl rfl h.ledger.nextpid (by rw [hT])

omit [DecidableEq κ] in
/-- `fork` starts the new process. -/
theorem Inv.birth (h : Inv init m T) (hx : m.exec m.hart = .proc p)
    (hT : T (.proc p) = ⟨.run, held, .forking q .linked, rs⟩) :
    Inv init (m.setProc q fun x => { x with state := .runnable }) (Function.update T (.proc p) ⟨.run, held, .none, rs⟩) := by
  obtain ⟨_, hq, hstate, hcontext, hparent⟩ := h.forking hT
  have hq' : .proc q ∈ (T (.proc p)).held := by
    rw [hT]
    exact hq
  have hH := h.handOver.setOther (f := fun x => { x with state := .runnable }) hx (by rw [hT]; exact .inr rfl) hq'
    (h.forking_other hT) (by rw [hstate]; exact fun hs => nomatch hs) (fun hu => absurd hstate hu)
    fun _ => .inl ⟨hcontext fun hs => (nomatch hs), fun hs => (nomatch hs)⟩
  rw [← Function.update_eq_self (.proc p) T] at hH
  refine ⟨hH.retask (by rw [hT]) (by rw [hT]), ?_, ?_⟩
  · refine h.family.change h.handOver hx (by rw [hT]) hq' rfl rfl ?_ (fun hs => nomatch hs) (.none rfl) fun q' hne hk => ?_
    · exact ⟨fun _ _ _ hr => hr, fun _ _ hr => hr, fun _ hu => absurd hstate hu, fun hs => (nomatch hs), fun hs => (nomatch hs),
        fun _ _ hn => (nomatch (hparent rfl).symm.trans hn), fun ha => (nomatch ha.1)⟩
    · rw [hT] at hk
      cases hk
      exact absurd rfl hne
  · refine h.ledger.settled (Settled.setProc ⟨⟨fun hs => (nomatch hs), fun hs => ?_⟩, fun hs => ?_, id⟩) rfl rfl
      h.ledger.nextpid (by rw [hT])
    · rw [hstate] at hs
      cases hs
    · rw [hstate] at hs
      cases hs

omit [DecidableEq H] [DecidableEq κ] in
/-- What a process that exits knows. -/
theorem Inv.exiting (h : Inv init m T) {mode : Mode ι} {parent : ι} {orphaned : List ι} {child : Option ι}
    (hT : T (.proc p) = ⟨mode, held, .exiting parent orphaned child, rs⟩) :
    p ≠ init ∧ ((m.procs p).parent = some parent ∨ (m.procs p).parent = some init) ∧
      (∀ r ∈ orphaned, (m.procs r).parent ≠ some p) ∧ ∀ r, child = some r → (m.procs r).parent = some p := by
  have ht := h.family.task p
  rw [hT] at ht
  cases ht with
  | none task => cases task
  | waiting scanned child task => cases task
  | exiting parent orphaned child task other parents used alive orphans mine =>
    cases task
    exact ⟨other, parents, orphans, mine⟩
  | forking q' stage' task => cases task

omit [DecidableEq κ] in
/-- `reparent` gives a child away. -/
theorem Inv.adopt (h : Inv init m T) (hx : m.exec m.hart = .proc p) {parent : ι} {orphaned : List ι}
    (hT : T (.proc p) = ⟨.run, held, .exiting parent orphaned (some q), rs⟩) (hq : .proc q ∈ held) :
    Inv init (m.setProc q fun x => { x with parent := some init })
      (Function.update T (.proc p) ⟨.run, held, .exiting parent (q :: orphaned) none, rs⟩) := by
  obtain ⟨hother, hparents, horphans, hmine⟩ := h.exiting hT
  have hmine := hmine q rfl
  have hrun := (h.handOver.run_state (p := p) (by rw [hT])).1
  have hq' : .proc q ∈ (T (.proc p)).held := by
    rw [hT]
    exact hq
  have hself : (m.setProc q fun x => { x with parent := some init }).procs q = { m.procs q with parent := some init } :=
    Function.update_self ..
  have hothers : ∀ r, r ≠ q → (m.setProc q fun x => { x with parent := some init }).procs r = m.procs r :=
    fun r hr => Function.update_of_ne hr _ _
  have hH := h.handOver.touch (f := fun x => { x with parent := some init }) hx (by rw [hT]; exact .inr rfl) hq' (.inl rfl)
  rw [← Function.update_eq_self (.proc p) T] at hH
  refine ⟨hH.retask (by rw [hT]) (by rw [hT]), ?_, ?_⟩
  · refine h.family.change h.handOver hx (by rw [hT]) hq' rfl rfl ?_ (fun hs r hr => ?_) ?_ fun _ _ hk => ?_
    · refine ⟨fun r hri _ hr => ?_, fun r hrp hr => ?_, fun _ _ _ => .inr rfl, fun hs => .inl hs, fun hs => .inl hs,
        fun _ _ hn => (nomatch hn), fun ha => ha⟩
      · exact absurd (Option.some.inj hr).symm hri
      · exact absurd (Option.some.inj (hmine.symm.trans hr)).symm hrp
    · -- an unused slot with a parent is one that the parent fills
      have := h.family.newborn p q hs hmine
      rw [hT] at this
      cases this
    · by_cases hpq : p = q
      · subst hpq
        refine .exiting parent (p :: orphaned) none rfl hother (.inr ?_) ?_ ?_ (fun r hr hpar => ?_) fun _ hc => nomatch hc
        · rw [hself]
        · rw [hself]
          exact fun hu => nomatch hrun.symm.trans hu
        · rw [hself]
          exact fun hz => nomatch hrun.symm.trans hz
        · by_cases hrp : r = p
          · rw [hrp, hself] at hpar
            exact hother (Option.some.inj hpar).symm
          · rw [hothers r hrp] at hpar
            exact horphans r ((List.mem_cons.mp hr).resolve_left hrp) hpar
      · refine .exiting parent (q :: orphaned) none rfl hother ?_ ?_ ?_ (fun r hr hpar => ?_) fun _ hc => nomatch hc
        · rw [hothers p hpq]
          exact hparents
        · rw [hothers p hpq]
          exact fun hu => nomatch hrun.symm.trans hu
        · rw [hothers p hpq]
          exact fun hz => nomatch hrun.symm.trans hz
        · by_cases hrq : r = q
          · rw [hrq, hself] at hpar
            exact hother (Option.some.inj hpar).symm
          · rw [hothers r hrq] at hpar
            exact horphans r ((List.mem_cons.mp hr).resolve_left hrq) hpar
    · rw [hT] at hk
      cases hk
  · exact h.ledger.settled (Settled.setProc ⟨Iff.rfl, fun _ => ⟨rfl, rfl⟩, id⟩) rfl rfl h.ledger.nextpid (by rw [hT])

/-! ### Waking up -/

omit [DecidableEq H] [DecidableEq ι] in
/-- Waking up is mild. -/
theorem Proc.wake_mild [DecidableEq ι] (c : Chan ι κ) (x : Proc ι κ) :
    Mild x (x.wake c) ∧ ((x.wake c).state = x.state ∨ x.state = .sleeping ∧ (x.wake c).state = .runnable) ∧
      ∀ q, (x.wake c).awaits q → x.awaits q := by
  unfold Proc.wake
  by_cases hw : x.state = .sleeping ∧ x.chan = some c
  · rw [if_pos hw]
    refine ⟨.state ?_ ⟨fun hs => (nomatch hs), fun hs => (nomatch hs)⟩ rfl rfl, .inr ⟨hw.1, rfl⟩, fun q ha => (nomatch ha.1)⟩
    rw [hw.1]
    exact ⟨fun hs => (nomatch hs), fun hs => (nomatch hs)⟩
  · rw [if_neg hw]
    exact ⟨.refl _, .inl rfl, fun _ ha => ha⟩

/-- Who is woken up on its own channel does not sleep in `wait`. -/
theorem Proc.wake_awaits (x : Proc ι κ) (q : ι) : ¬ (x.wake (.proc q)).awaits q := by
  unfold Proc.wake
  by_cases hw : x.state = .sleeping ∧ x.chan = some (.proc q)
  · rw [if_pos hw]
    exact fun ha => nomatch ha.1
  · rw [if_neg hw]
    exact hw

theorem Inv.wake (h : Inv init m T) {x : Thread H ι} (hx : m.exec m.hart = x) {mode : Mode ι} {k : Task ι}
    (hT : T x = ⟨mode, held, k, rs⟩) (hstage : mode = .loop ∨ mode = .run) (hq : .proc q ∈ held) (c : Chan ι κ) :
    Inv init (m.setProc q (Proc.wake c)) T := by
  obtain ⟨hmild, hstate, hawaits⟩ := Proc.wake_mild c (m.procs q)
  exact h.touch hx hT hstage hq hstate hmild (hawaits q)

/-! ### Deaths -/

omit [DecidableEq κ] in
/-- The books after an exit. -/
theorem Ledger.exit (h : Ledger m T) {m' : Machine H ι κ} {t : Token ι κ} {s : Int} (hstate : (m.procs p).state ≠ .zombie)
    (hp : (m'.procs p).state = .zombie ∧ (m'.procs p).pid = (m.procs p).pid ∧ (m'.procs p).xstate = s)
    (hother : ∀ r, r ≠ p → Settled (m.procs r) (m'.procs r)) (hexits : m'.exits = ⟨p, (m.procs p).pid, s⟩ :: m.exits)
    (hfrees : m'.frees = m.frees) (hnext : m'.nextpid = m.nextpid) (ht : t.reaped = (T (.proc p)).reaped) :
    Ledger m' (Function.update T (.proc p) t) := by
  have hreaps : m'.reaps = m.reaps := by
    unfold Machine.reaps
    rw [hfrees]
  refine ⟨fun e => ?_, ?_, fun r => ?_, fun r => ?_, hnext ▸ h.nextpid⟩
  · rw [hexits, hreaps, List.count_cons, h.balance e]
    by_cases he : e.slot = p
    · have hold : ¬ (m.procs e.slot).leftBy e := by
        rw [he]
        exact fun hl => hstate hl.1
      have hnew : (m'.procs e.slot).leftBy e ↔ (⟨p, (m.procs p).pid, s⟩ : Exit ι) = e := by
        rw [he]
        obtain ⟨hz, hpid, hx⟩ := hp
        constructor
        · rintro ⟨_, h1, h2⟩
          cases e
          cases he
          rw [Exit.mk.injEq]
          exact ⟨rfl, hpid.symm.trans h1, hx.symm.trans h2⟩
        · rintro rfl
          exact ⟨hz, hpid, hx⟩
      simp only [hnew, if_neg hold, beq_iff_eq]
      rfl
    · have hne : ¬ (⟨p, (m.procs p).pid, s⟩ : Exit ι) = e := by
        rintro rfl
        exact he rfl
      simp only [(hother e.slot he).leftBy e, beq_iff_eq, if_neg hne, Nat.add_zero]
  · rw [hfrees]
    exact h.frees
  · have hsame : (Function.update T (.proc p) t (.proc r)).reaped = (T (.proc r)).reaped := by
      by_cases hr : r = p
      · subst hr
        rw [Function.update_self, ht]
      · rw [Function.update_of_ne fun he => hr (Thread.proc.inj he)]
    rw [hsame, h.reaped r]
    unfold Machine.reapedBy
    rw [hreaps]
  · by_cases hr : r = p
    · rw [hr, hp.2.1]
      exact h.pid p
    · exact (hother r hr).pid (h.pid r)

omit [DecidableEq κ] in
/-- A process whose parent is awake becomes a zombie. -/
theorem Inv.zombie (h : Inv init m T) (hx : m.exec m.hart = .proc p) {parent : ι} {orphaned : List ι} {child : Option ι}
    (hT : T (.proc p) = ⟨.run, held, .exiting parent orphaned child, rs⟩) (hall : ∀ r, r ∈ orphaned) (hp : .proc p ∈ held)
    (hparent : .proc parent ∈ held) (hawake : ¬ (m.procs parent).awaits parent) (status : Int) :
    Inv init
      { m.setProc p fun x => { x with xstate := status, state := .zombie } with exits := ⟨p, (m.procs p).pid, status⟩ :: m.exits }
      (Function.update T (.proc p) ⟨.leaving true, held, .none, rs⟩) := by
  obtain ⟨hother, hparents, horphans, _⟩ := h.exiting hT
  have hrun := (h.handOver.run_state (p := p) (by rw [hT])).1
  have hp' : .proc p ∈ (T (.proc p)).held := by
    rw [hT]
    exact hp
  have hH := h.handOver.pause (f := fun x => { x with xstate := status, state := .zombie }) (d := true)
    (t := ⟨.leaving true, held, .none, rs⟩) hx (by rw [hT]) hp' (fun hs => nomatch hs) (fun hs => nomatch hs)
    ⟨fun _ => rfl, fun _ => rfl⟩ rfl (by rw [hT])
  refine ⟨hH.frame rfl rfl rfl rfl rfl, ?_, ?_⟩
  · refine h.family.change h.handOver hx (by rw [hT]) hp' rfl rfl ?_ (fun hs => nomatch hs) (.none rfl) fun _ _ hk => ?_
    · refine ⟨fun _ _ _ hr => hr, fun _ _ hr => hr, fun hr _ _ => .inl hr, fun hs => (nomatch hs),
        fun _ => .inr ⟨rfl, hother, horphans p (hall p), fun r => horphans r (hall r), fun r hr hri => ?_⟩, fun hpi _ hn => ?_,
        fun ha => (nomatch ha.1)⟩
      · -- the parent is the one whose lock is held
        have hrp : r = parent := by
          obtain hpar | hpar := hparents
          · exact Option.some.inj (hr.symm.trans hpar)
          · exact absurd (Option.some.inj (hr.symm.trans hpar)) hri
        rw [hrp, hT]
        exact ⟨hparent, hawake⟩
      · obtain hpar | hpar := hparents
        · exact nomatch hpar.symm.trans hn
        · exact nomatch hpar.symm.trans hn
    · rw [hT] at hk
      cases hk
  · refine h.ledger.exit (s := status) (fun hz => nomatch hrun.symm.trans hz) ?_ (fun r hr => ?_) rfl rfl rfl (by rw [hT])
    · show (Function.update m.procs p _ p).state = _ ∧ (Function.update m.procs p _ p).pid = _ ∧
        (Function.update m.procs p _ p).xstate = _
      rw [Function.update_self]
      exact ⟨rfl, rfl, rfl⟩
    · show Settled _ (Function.update m.procs p _ r)
      rw [Function.update_of_ne hr]
      exact .refl _

/-- `exit` wakes up the parent and leaves a zombie. -/
theorem Inv.die (h : Inv init m T) (hx : m.exec m.hart = .proc p) {parent : ι} {orphaned : List ι} {child : Option ι}
    (hT : T (.proc p) = ⟨.run, held, .exiting parent orphaned child, rs⟩) (hall : ∀ r, r ∈ orphaned) (hp : .proc p ∈ held)
    (hparent : .proc parent ∈ held) (status : Int) :
    Inv init
      { (m.setProc parent (Proc.wake (.proc parent))).setProc p fun x => { x with xstate := status, state := .zombie } with
        exits := ⟨p, (m.procs p).pid, status⟩ :: m.exits }
      (Function.update T (.proc p) ⟨.leaving true, held, .none, rs⟩) := by
  have hw := h.wake hx hT (.inr rfl) hparent (.proc parent)
  have hpid : ((m.setProc parent (Proc.wake (.proc parent))).procs p).pid = (m.procs p).pid := by
    show (Function.update m.procs parent _ p).pid = _
    by_cases hpp : p = parent
    · subst hpp
      rw [Function.update_self]
      unfold Proc.wake
      by_cases hc : (m.procs p).state = .sleeping ∧ (m.procs p).chan = some (.proc p)
      · rw [if_pos hc]
      · rw [if_neg hc]
    · rw [Function.update_of_ne hpp]
  have hawake : ¬ ((m.setProc parent (Proc.wake (.proc parent))).procs parent).awaits parent := by
    show ¬ (Function.update m.procs parent _ parent).awaits parent
    rw [Function.update_self]
    exact Proc.wake_awaits _ _
  rw [← hpid]
  exact hw.zombie hx hT hall hp hparent hawake status

/-! ### Frees -/

variable [Fintype H]

omit [DecidableEq κ] in
/-- What `freeproc` does to the books: a zombie is freed by its parent, an unused slot does not
count. -/
theorem Ledger.free (h : Ledger m T) {mode : Mode ι} {k : Task ι} (hT : T (.proc p) = ⟨mode, held, k, rs⟩)
    (hrunning : ∀ h, m.exec h ≠ .proc q)
    (hstate : (m.procs q).state = .unused ∨ (m.procs q).state = .zombie ∧ (m.procs q).parent = some p) :
    Ledger (m.freeproc p q) (Function.update T (.proc p) ⟨mode, held, .none,
      if (m.procs q).state = .zombie then ((m.procs q).pid, (m.procs q).xstate) :: rs else rs⟩) := by
  have hself : (m.freeproc p q).procs q = ⟨.unused, none, none, false, 0, 0⟩ := Function.update_self ..
  have hothers : ∀ r, r ≠ q → (m.freeproc p q).procs r = m.procs r := fun r hr => Function.update_of_ne hr _ _
  have hreaps : (m.freeproc p q).reaps = if (m.procs q).state = .zombie then
      (⟨⟨q, (m.procs q).pid, (m.procs q).xstate⟩, (m.procs q).state, (m.procs q).parent, p,
        decide (∃ h, m.exec h = .proc q)⟩ : Free ι) :: m.reaps else m.reaps := by
    show List.filter _ (_ :: m.frees) = _
    rw [List.filter_cons]
    simp only [decide_eq_true_eq]
    rfl
  refine ⟨fun e => ?_, fun r hr => ?_, fun r => ?_, fun r => ?_, h.nextpid⟩
  · have hexits : (m.freeproc p q).exits = m.exits := rfl
    rw [hexits, h.balance e, hreaps]
    by_cases he : e.slot = q
    · rw [he, hself]
      have hnew : ¬ (⟨.unused, none, none, false, 0, 0⟩ : Proc ι κ).leftBy e := fun hl => nomatch hl.1
      rw [if_neg hnew]
      by_cases hz : (m.procs q).state = .zombie
      · have hold : (m.procs q).leftBy e ↔ (⟨q, (m.procs q).pid, (m.procs q).xstate⟩ : Exit ι) = e := by
          constructor
          · rintro ⟨_, h1, h2⟩
            cases e
            cases he
            rw [Exit.mk.injEq]
            exact ⟨rfl, h1, h2⟩
          · rintro rfl
            exact ⟨hz, rfl, rfl⟩
        rw [if_pos hz, List.map_cons, List.count_cons]
        simp only [hold, beq_iff_eq, Nat.add_zero]
      · have hold : ¬ (m.procs q).leftBy e := fun hl => hz hl.1
        rw [if_neg hz, if_neg hold]
    · rw [hothers _ he]
      by_cases hz : (m.procs q).state = .zombie
      · have hne : ¬ (⟨q, (m.procs q).pid, (m.procs q).xstate⟩ : Exit ι) = e := by
          rintro rfl
          exact he rfl
        rw [if_pos hz, List.map_cons, List.count_cons]
        simp only [beq_iff_eq, if_neg hne, Nat.add_zero]
      · rw [if_neg hz]
  · have hr : r ∈ _ :: m.frees := hr
    obtain rfl | hr := List.mem_cons.mp hr
    · refine ⟨decide_eq_false fun ⟨h, he⟩ => hrunning h he, hstate⟩
    · exact h.frees r hr
  · have hold : (T (.proc r)).reaped = m.reapedBy r := h.reaped r
    have hby : (m.freeproc p q).reapedBy r = if (m.procs q).state = .zombie ∧ p = r then
        ((m.procs q).pid, (m.procs q).xstate) :: m.reapedBy r else m.reapedBy r := by
      unfold Machine.reapedBy
      rw [hreaps]
      by_cases hz : (m.procs q).state = .zombie
      · rw [if_pos hz, List.filter_cons]
        by_cases hpr : p = r
        · rw [if_pos (decide_eq_true hpr), if_pos ⟨hz, hpr⟩, List.map_cons]
        · rw [if_neg (by simpa using hpr), if_neg fun hc => hpr hc.2]
      · rw [if_neg hz, if_neg fun hc => hz hc.1]
    rw [hby]
    by_cases hpr : r = p
    · subst hpr
      rw [hT] at hold
      rw [Function.update_self, ← hold]
      by_cases hz : (m.procs q).state = .zombie
      · rw [if_pos hz, if_pos ⟨hz, rfl⟩]
      · rw [if_neg hz, if_neg fun hc => hz hc.1]
    · rw [Function.update_of_ne fun he => hpr (Thread.proc.inj he), if_neg fun hc => hpr hc.2.symm]
      exact hold
  · by_cases hr : r = q
    · rw [hr, hself]
    · rw [hothers r hr]
      exact h.pid r

omit [DecidableEq κ] in
/-- A failed `fork` frees the slot it has found. -/
theorem Inv.unfork (h : Inv init m T) (hx : m.exec m.hart = .proc p) {stage : Stage} (hstage : stage ≠ .linked)
    (hT : T (.proc p) = ⟨.run, held, .forking q stage, rs⟩) :
    Inv init (m.freeproc p q) (Function.update T (.proc p) ⟨.run, held, .none, rs⟩) := by
  obtain ⟨_, hq, hstate, _⟩ := h.forking hT
  have hnone := h.unborn hx hT hstage
  have hq' : .proc q ∈ (T (.proc p)).held := by
    rw [hT]
    exact hq
  have hself : (m.freeproc p q).procs q = ⟨.unused, none, none, false, 0, 0⟩ := Function.update_self ..
  have hone : Mild (m.procs q) ⟨.unused, none, none, false, 0, 0⟩ := by
    refine ⟨⟨⟨fun hs => (nomatch hs), fun hs => ?_⟩, fun hs => ?_, fun _ => le_rfl⟩, hnone.symm, fun _ => hstate, fun _ => rfl⟩
    · rw [hstate] at hs
      cases hs
    · rw [hstate] at hs
      cases hs
  have hmild : ∀ r, Mild (m.procs r) ((m.freeproc p q).procs r) := Mild.setProc (f := fun _ => ⟨.unused, none, none, false, 0, 0⟩) hone
  have hH : HandOver (m.freeproc p q) T :=
    (h.handOver.touch (f := fun x => ⟨.unused, none, none, false, 0, 0⟩) hx (by rw [hT]; exact .inr rfl) hq'
      (.inl hstate.symm)).frame rfl rfl rfl rfl rfl
  rw [← Function.update_eq_self (.proc p) T] at hH
  refine ⟨hH.retask (by rw [hT]) (by rw [hT]), ?_, ?_⟩
  · refine h.family.mild hmild (h.family.heard_mild hmild fun r ha => ?_) (fun _ _ _ _ _ => rfl) (fun _ _ => .none rfl) ?_
    · by_cases hr : r = q
      · rw [hr, hself] at ha
        exact nomatch ha.1
      · have : (m.freeproc p q).procs r = m.procs r := Function.update_of_ne hr _ _
        rw [this] at ha
        exact ha
    · intro q' hk
      rw [hT] at hk
      cases hk
      exact absurd rfl hstage
  · have hne : (m.procs q).state ≠ .running := by
      rw [hstate]
      exact fun hs => nomatch hs
    have := h.ledger.free hT (h.handOver.not_executed hx hq' (h.forking_other hT) hne) (.inl hstate)
    rw [if_neg (by rw [hstate]; exact fun hs => nomatch hs)] at this
    exact this

omit [DecidableEq κ] in
/-- `wait` frees the zombie it has found. -/
theorem Inv.reap (h : Inv init m T) (hx : m.exec m.hart = .proc p) {scanned : List ι}
    (hT : T (.proc p) = ⟨.run, held, .waiting scanned (some q), rs⟩) (hq : .proc q ∈ held)
    (hstate : (m.procs q).state = .zombie) :
    Inv init (m.freeproc p q)
      (Function.update T (.proc p) ⟨.run, held, .none, ((m.procs q).pid, (m.procs q).xstate) :: rs⟩) := by
  have hmine : (m.procs q).parent = some p := by
    have ht := h.family.task p
    rw [hT] at ht
    cases ht with
    | none task => cases task
    | exiting parent orphaned child task => cases task
    | forking q' stage' task => cases task
    | waiting scanned' child task mode held alive mine =>
      cases task
      exact mine q rfl
  have hq' : .proc q ∈ (T (.proc p)).held := by
    rw [hT]
    exact hq
  have hrun := (h.handOver.run_state (p := p) (by rw [hT])).1
  have hne : Thread.proc (H := H) p ≠ .proc q := by
    rintro ⟨⟩
    exact nomatch hrun.symm.trans hstate
  have hnot : (m.procs q).state ≠ .running := by
    rw [hstate]
    exact fun hs => nomatch hs
  have hH : HandOver (m.freeproc p q) T :=
    (h.handOver.setOther (f := fun x => ⟨.unused, none, none, false, 0, 0⟩) hx (by rw [hT]; exact .inr rfl) hq' hne
      hnot (fun _ hz => absurd hstate hz) fun _ => .inr (.inl rfl)).frame rfl rfl rfl rfl rfl
  rw [← Function.update_eq_self (.proc p) T] at hH
  refine ⟨hH.retask (by rw [hT]) (by rw [hT]), ?_, ?_⟩
  · have hchange : Change init m p (T (.proc p)).held q ⟨.unused, none, none, false, 0, 0⟩ := by
      refine ⟨fun _ _ _ hr => (nomatch hr), fun r hrp hr => ?_, fun _ _ hz => absurd hstate hz, fun _ => .inr hstate,
        fun hs => (nomatch hs), fun _ hu => absurd rfl hu, fun ha => (nomatch ha.1)⟩
      exact absurd (Option.some.inj (hmine.symm.trans hr)).symm hrp
    refine h.family.change h.handOver hx (by rw [hT]) hq' rfl rfl hchange (fun _ _ hr => nomatch hr) (.none rfl) fun _ _ hk => ?_
    rw [hT] at hk
    cases hk
  · have := h.ledger.free hT (h.handOver.not_executed hx hq' hne hnot) (.inr ⟨hstate, hmine⟩)
    rw [if_pos hstate] at this
    exact this

end Farron.Harts
