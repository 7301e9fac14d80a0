import Farron.Kernel.Wakeups
import Farron.Pipe.Stream
import Mathlib.Algebra.BigOperators.Group.Finset.Piecewise

/-! Nobody sleeps on a pipe in vain, but for one early return.

A judgement for each function of the pipe says which wakeups are owed where it returns.
`pipewrite` returns early when it is killed while the ring is full: it has then not woken
the readers for the bytes it has put since it took the lock. In every run where no
writer that is killed leaves such a debt nobody sleeps without reason
(`pipe_wakeups`); that the bytes arrive in order holds in all runs (`pipe_fifo`). -/
namespace Farron
open Resumption
variable {ι : Type} [Fintype ι] [DecidableEq ι]

/-! ### Who may sleep -/

/-- When a process may sleep on a channel of the pipe. -/
def Pipe.mayWait (p : Pipe) : PipeChan → Prop
  | .nread => p.empty ∧ p.writeopen = true
  | .nwrite => p.full ∧ p.readopen = true

/-- The end that a sleeper has. -/
def PipeChan.writable : PipeChan → Bool
  | .nread => false
  | .nwrite => true

/-- With `strict`, nobody sleeps without reason; the rest holds in any case. -/
def pipeWatch (strict : Prop) : Watch ι PipeChan PipeFiles Pipe PipeHold where
  want c d := strict → d.pipe.mayWait c
  able c x := 0 < x.ends.count c.writable
  J := PipeKept
  fix := PipeFiles.pipe

/-- Who sleeps on `c` is owed a wakeup if bytes have moved. -/
def debt (c : PipeChan) (moved : Nat) (c' : PipeChan) (_ : ι) : Prop := c' = c ∧ 0 < moved

omit [Fintype ι] [DecidableEq ι] in
theorem debt_zero (c : PipeChan) : (debt c 0 : PipeChan → ι → Prop) = fun _ _ => False := by
  funext c' j
  exact propext ⟨fun h => absurd h.2 (Nat.lt_irrefl 0), False.elim⟩

omit [Fintype ι] [DecidableEq ι] in
theorem debt_paid (c : PipeChan) (moved : Nat) :
    (fun c' (j : ι) => debt c moved c' j ∧ c' ≠ c) = fun _ _ => False := by
  funext c' j
  exact propext ⟨fun h => h.2 h.1.1, False.elim⟩

/-- The condition on a run: a killed writer that gives up has woken the readers for the bytes
it put. -/
def PipeLabel.paid : PipeLabel → Prop
  | .plain => True
  | .giveUp moved => moved = 0

section Calls
variable {strict : Prop} {C : PipeLabel → World ι PipeChan PipeFiles → Prop} {i : ι} {own : PipeHold}
variable {proc : List ι} {rounds : Nat}

local instance : Inhabited PipeLabel := ⟨.plain⟩

/-- A section on the pipe that lets who sleeps on another channel than `c` sleep on. -/
theorem runs_onPipe {f : Pipe → Pipe} (c : PipeChan) {m : Nat} {own' : PipeHold} {N N' : Pipe → Prop}
    (hJ : ∀ d own₀, PipeKept d own₀ → own₀ i = own → N d.pipe →
      PipeKept { d with pipe := f d.pipe } (Function.update own₀ i own'))
    (hN : ∀ p, N p → N' (f p)) (hwait : ∀ p c', N p → c' ≠ c → p.mayWait c' → (f p).mayWait c') :
    Runs (pipeWatch strict) C i (onPipe f) (.owing own (debt c m)) N fun _ t' p =>
      t' = .owing own' (debt c (m + 1)) ∧ N' p := by
  apply runs_update
  intro w T hI hT hNp _
  refine ⟨hJ w.data _ hI.own (by rw [hT]; rfl) hNp, hN _ hNp, fun c' j _ hw => ?_⟩
  by_cases hc : c' = c
  · exact .inr ⟨hc, Nat.succ_pos m⟩
  · obtain hw | ho := hw
    · exact .inl fun hs => hwait _ c' hNp hc (hw hs)
    · exact absurd ho.1 hc

/-- `wakeup` pays the debt. -/
theorem runs_pay (hproc : ∀ j, j ∈ proc) (c : PipeChan) (m : Nat) {N : Pipe → Prop} :
    Runs (pipeWatch strict) C i (wakeup c proc) (.owing own (debt c m)) N fun _ t' p => t' = .held own ∧ N p := by
  refine runs_post (runs_wakeup_all hproc c _) ?_
  intro _ t' p ht
  rw [debt_paid] at ht
  exact ht

/-- The duty after `waitRoom`. -/
def afterRoom (own : PipeHold) : Option Nat → Duty ι PipeChan PipeHold
  | none => .out own
  | some m => .owing own (debt .nread m)

theorem runs_waitRoom (hproc : ∀ j, j ∈ proc) (hC : ∀ l w, C l w → strict → l.paid)
    (hown : 0 < own.ends.writes) (n m : Nat) :
    Runs (pipeWatch strict) C i (waitRoom i proc n m) (.owing own (debt .nread m)) (fun _ => True)
      fun r t' p => t' = afterRoom own r ∧ (r ≠ none → ¬ p.full) := by
  induction n generalizing m with
  | zero => exact Rules.Judge.stop trivial
  | succ n ih =>
    refine runs_seq (fun _ => .owing own (debt .nread m)) (runs_fetch trivial) fun d => ?_
    by_cases hfull : d.pipe.full
    · rw [if_pos hfull]
      by_cases hopen : d.pipe.readopen = false
      · -- no reader is left, so nobody sleeps on `nread`
        rw [if_pos hopen]
        refine runs_seq (fun _ => .out own) (F := fun _ _ => True) ?_ fun _ =>
          runs_ret fun _ _ => ⟨rfl, fun h => absurd rfl h⟩
        refine runs_post (runs_release trivial ?_) fun _ _ _ ht => ⟨ht, trivial⟩
        intro w T hI _ hN c j hs ho
        obtain ⟨rfl, _⟩ := ho
        have hheld : PipeKept w.data fun j => (T j).own := hI.own
        have := hheld.isOpen (i := j) (b := false) (hI.able j _ (hI.nap j _ hs))
        have hd : w.data.pipe = d.pipe := hN.2
        rw [hd] at this
        exact absurd (this.symm.trans hopen) (by decide)
      · rw [if_neg hopen]
        refine runs_seq (fun _ => .owing own (debt .nread m)) (F := fun _ x => x = d.pipe)
          (runs_look fun w _ => runs_ret fun _ hN => ⟨rfl, hN.2⟩) fun k => ?_
        cases k with
        | true =>
          show Runs _ C i (.act _ _ _) _ _ _
          apply runs_look
          intro w hCw
          show Runs _ C i (release i >>= fun _ => .ret none) _ _ _
          refine runs_seq (fun _ => .out own) (F := fun _ _ => True) ?_ fun _ =>
            runs_ret fun _ _ => ⟨rfl, fun h => absurd rfl h⟩
          refine runs_post (runs_release trivial ?_) fun _ _ _ ht => ⟨ht, trivial⟩
          intro _ _ _ _ _ c j _ ho hs
          have hm : m = 0 := hC _ w hCw hs
          rw [hm, debt_zero] at ho
          exact ho.elim
        | false =>
          refine runs_seq (fun _ => .held own) (runs_pay hproc .nread m) fun _ => ?_
          refine runs_seq (fun _ => .owing own (debt .nread 0)) (F := fun _ _ => True) ?_ fun _ => ih 0
          rw [debt_zero]
          refine runs_post (runs_sleep PipeChan.nwrite ?_ hown) fun _ _ _ ht => ⟨ht, trivial⟩
          intro d' hN _
          have hd : d'.pipe = d.pipe := hN
          rw [hd]
          exact ⟨hfull, Bool.eq_true_of_not_eq_false hopen⟩
    · rw [if_neg hfull]
      apply runs_ret
      intro p hN
      refine ⟨rfl, fun _ => ?_⟩
      rw [hN.2]
      exact hfull

/-- The duty after `pipewriteLoop`; `m` bytes are still to be announced. -/
def afterWrite (own : PipeHold) (r : Option Nat) (m : Nat) : Duty ι PipeChan PipeHold :=
  afterRoom own (r.map fun _ => m)

theorem runs_pipewriteLoop (hproc : ∀ j, j ∈ proc) (hC : ∀ l w, C l w → strict → l.paid)
    (hown : 0 < own.ends.writes) (buf : UserBuf) (n at' m : Nat) :
    Runs (pipeWatch strict) C i (pipewriteLoop i proc rounds buf n at' m) (.owing own (debt .nread m))
      (fun _ => True) fun r t' _ => (∃ m', t' = afterWrite own r m') ∧ True := by
  induction n generalizing at' m with
  | zero => exact runs_ret fun _ _ => ⟨⟨m, rfl⟩, trivial⟩
  | succ n ih =>
    refine runs_seq (afterRoom own) (runs_waitRoom hproc hC hown rounds m) fun r => ?_
    cases r with
    | none => exact runs_ret fun _ _ => ⟨⟨m, rfl⟩, trivial⟩
    | some m' =>
      show Runs _ C i (if buf.ok at' = true then _ else _) _ _ _
      by_cases hok : buf.ok at'
      · rw [if_pos hok]
        refine runs_seq (fun _ => .owing own (debt .nread (m' + 1))) (F := fun _ _ => True)
          (runs_onPipe .nread ?_ (fun _ _ => trivial) ?_) fun _ => ih (at' + 1) (m' + 1)
        · intro d own₀ hd hi hroom
          rw [← hi, Function.update_eq_self]
          exact hd.onPipe (hd.stream.store (hroom (fun h => nomatch h)) _) fun b => by cases b <;> rfl
        · intro p c hroom hc hw
          cases c with
          | nread => exact absurd rfl hc
          | nwrite => exact absurd hw.1 (hroom (fun h => nomatch h))
      · rw [if_neg hok]
        exact runs_ret fun _ _ => ⟨⟨m', rfl⟩, trivial⟩

theorem runs_pipewrite (hproc : ∀ j, j ∈ proc) (hC : ∀ l w, C l w → strict → l.paid)
    (hown : 0 < own.ends.writes) (buf : UserBuf) (n : Int) :
    Runs (pipeWatch strict) C i (pipewrite i proc rounds buf n) (.out own) (fun _ => True)
      fun _ t' _ => t' = .out own := by
  refine runs_seq (fun _ => .owing own (debt .nread 0)) (F := fun _ _ => True) ?_ fun _ => ?_
  · rw [debt_zero]
    exact runs_post (runs_acquire fun _ => trivial) fun _ _ _ ht => ⟨ht, trivial⟩
  refine runs_some (afterWrite own) (runs_pipewriteLoop hproc hC hown buf n.toNat 0 0) fun r m => ?_
  cases r with
  | none => exact runs_ret fun _ _ => rfl
  | some k =>
    refine runs_seq (fun _ => .held own) (runs_pay hproc .nread m) fun _ => ?_
    refine runs_seq (fun _ => .out own) (F := fun _ _ => True) ?_ fun _ => runs_ret fun _ _ => rfl
    exact runs_post runs_release_held fun _ _ _ ht => ⟨ht, trivial⟩

theorem runs_waitByte (hown : 0 < own.ends.reads) (n : Nat) :
    Runs (pipeWatch strict) C i (waitByte i n) (.held own) (fun _ => True)
      fun r t' _ => t' = (if r then .held own else .out own) ∧ True := by
  induction n with
  | zero => exact Rules.Judge.stop trivial
  | succ n ih =>
    refine runs_seq (fun _ => .held own) (runs_fetch trivial) fun d => ?_
    by_cases hempty : d.pipe.empty ∧ d.pipe.writeopen = true
    · rw [if_pos hempty]
      refine runs_seq (fun _ => .held own) (F := fun _ x => x = d.pipe)
        (runs_look fun w _ => runs_ret fun _ hN => ⟨rfl, hN.2⟩) fun k => ?_
      cases k with
      | true =>
        show Runs _ C i (release i >>= fun _ => .ret false) _ _ _
        refine runs_seq (fun _ => .out own) (F := fun _ _ => True) ?_ fun _ => runs_ret fun _ _ => ⟨rfl, trivial⟩
        exact runs_post runs_release_held fun _ _ _ ht => ⟨ht, trivial⟩
      | false =>
        show Runs _ C i (sleep i .nread >>= fun _ => waitByte i n) _ _ _
        refine runs_seq (fun _ => .held own) (F := fun _ _ => True) ?_ fun _ => ih
        refine runs_post (runs_sleep PipeChan.nread ?_ hown) fun _ _ _ ht => ⟨ht, trivial⟩
        intro d' hN _
        have hd : d'.pipe = d.pipe := hN
        rw [hd]
        exact hempty
    · rw [if_neg hempty]
      exact runs_ret fun _ _ => ⟨rfl, trivial⟩

theorem runs_pipereadLoop (buf : UserBuf) (n at' m : Nat) :
    Runs (pipeWatch strict) C i (pipereadLoop buf n at') (.owing own (debt .nwrite m)) (fun _ => True)
      fun _ t' _ => (∃ m', t' = .owing own (debt .nwrite m')) ∧ True := by
  induction n generalizing at' m with
  | zero => exact runs_ret fun _ _ => ⟨⟨m, rfl⟩, trivial⟩
  | succ n ih =>
    refine runs_seq (fun _ => .owing own (debt .nwrite m)) (runs_fetch trivial) fun d => ?_
    by_cases hempty : d.pipe.empty
    · rw [if_pos hempty]
      exact runs_ret fun _ _ => ⟨⟨m, rfl⟩, trivial⟩
    · rw [if_neg hempty]
      refine runs_seq (fun _ => .owing own (debt .nwrite (m + 1))) (F := fun _ _ => True)
        (runs_onPipe .nwrite ?_ (fun _ _ => trivial) ?_) fun _ => ?_
      · intro d' own₀ hd hi hN
        rw [← hi, Function.update_eq_self]
        have hsome : ¬ d'.pipe.empty := by
          rw [hN.2]
          exact hempty
        exact hd.onPipe (hd.stream.drop hsome) fun b => by cases b <;> rfl
      · intro p c hN hc hw
        cases c with
        | nread =>
          have hp : p = d.pipe := hN.2
          rw [hp] at hw
          exact absurd hw.1 hempty
        | nwrite => exact absurd rfl hc
      · by_cases hok : buf.ok at'
        · rw [if_pos hok]
          exact ih (at' + 1) (m + 1)
        · rw [if_neg hok]
          exact runs_ret fun _ _ => ⟨⟨m + 1, rfl⟩, trivial⟩

theorem runs_piperead (hproc : ∀ j, j ∈ proc) (hown : 0 < own.ends.reads) (buf : UserBuf) (n : Int) :
    Runs (pipeWatch strict) C i (piperead i proc rounds buf n) (.out own) (fun _ => True)
      fun _ t' _ => t' = .out own := by
  refine runs_seq (fun _ => .held own) (F := fun _ _ => True)
    (runs_post (runs_acquire fun _ => trivial) fun _ _ _ ht => ⟨ht, trivial⟩) fun _ => ?_
  refine runs_seq (fun r => if r then .held own else .out own) (runs_waitByte hown rounds) fun r => ?_
  cases r with
  | false => exact runs_ret fun _ _ => rfl
  | true =>
    refine runs_some (fun _ m => .owing own (debt .nwrite m)) (F := fun _ _ => True) ?_ fun k m => ?_
    · show Runs _ C i (pipereadLoop buf n.toNat 0) (.owing own fun _ _ => False) _ _
      rw [← debt_zero .nwrite]
      exact runs_pipereadLoop buf n.toNat 0 0
    refine runs_seq (fun _ => .held own) (runs_pay hproc .nwrite m) fun _ => ?_
    refine runs_seq (fun _ => .out own) (F := fun _ _ => True) ?_ fun _ => runs_ret fun _ _ => rfl
    exact runs_post runs_release_held fun _ _ _ ht => ⟨ht, trivial⟩

theorem runs_pipeclose (hproc : ∀ j, j ∈ proc) (e : Ends) (b : Bool) :
    Runs (pipeWatch strict) C i (pipeclose i proc b) (.out ⟨e, some b⟩) (fun _ => True)
      fun _ t' _ => t' = .out ⟨e, none⟩ := by
  refine runs_seq (fun _ => .owing ⟨e, some b⟩ (debt (if b then .nread else .nwrite) 0)) (F := fun _ _ => True) ?_
    fun _ => ?_
  · rw [debt_zero]
    exact runs_post (runs_acquire fun _ => trivial) fun _ _ _ ht => ⟨ht, trivial⟩
  refine runs_seq (fun _ => .owing ⟨e, none⟩ (debt (if b then .nread else .nwrite) 1)) (F := fun _ _ => True)
    (runs_onPipe _ ?_ (fun _ _ => trivial) ?_) fun _ => ?_
  · intro d own₀ hd hi _
    have hzero := hd.closing i b (by rw [hi])
    have hends : ∀ b' j, (Function.update own₀ i ⟨e, none⟩ j).ends.count b' = (own₀ j).ends.count b' := by
      intro b' j
      by_cases hj : j = i
      · subst hj
        rw [Function.update_self, hi]
      · rw [Function.update_of_ne hj]
    refine ⟨hd.stream.shut b, fun b' => ?_, fun b' hb' => ?_, fun j b' hj => ?_⟩
    · simp only [hends]
      exact hd.ref b'
    · by_cases hbb : b' = b
      · subst hbb
        exact hzero
      · refine hd.shut b' ?_
        rw [← hb']
        cases b <;> cases b' <;> first | rfl | exact absurd rfl hbb
    · by_cases hji : j = i
      · subst hji
        rw [Function.update_self] at hj
        cases hj
      · rw [Function.update_of_ne hji] at hj
        exact hd.closing j b' hj
  · intro p c _ hc hw
    cases b <;> cases c <;> first | exact hw | exact absurd rfl hc
  refine runs_seq (fun _ => .held ⟨e, none⟩) (runs_pay hproc _ 1) fun _ => ?_
  exact runs_release_held

theorem runs_filedup (e : Ends) (b : Bool) (hown : 0 < e.count b) :
    Runs (pipeWatch strict) C i (filedup b) (.out ⟨e, none⟩) (fun _ => True)
      fun _ t' _ => t' = .out ⟨e.add b, none⟩ ∧ True := by
  apply runs_data (f := fun d : PipeFiles => d.dup b) rfl rfl
  intro w T hI hT _ _
  have hi : (T i).own = ⟨e, none⟩ := by rw [hT]; rfl
  have hkept : PipeKept w.data fun j => (T j).own := hI.own
  have hle := hkept.count_le i b
  rw [hi] at hle
  have hd : w.data.dup b = w.data.setRef b (w.data.ref b + 1) := if_neg (Nat.not_lt.mpr (Nat.lt_of_lt_of_le hown hle))
  have hpipe : (w.data.dup b).pipe = w.data.pipe := by
    rw [hd]
    cases b <;> rfl
  refine ⟨⟨e.add b, none⟩, fun _ _ => False, fun _ => True, ?_, trivial, .inr ⟨hpipe, fun _ => trivial⟩,
    fun c j _ hw => .inl fun hs => ?_, fun c j _ ho => ho.elim, ?_⟩
  · rw [hd]
    refine PipeKept.setRef hI.own ?_ ?_ (fun h0 => ?_) fun b' hb' => nomatch hb'
    · rw [hi]
      cases b <;> simp only [Ends.count, Ends.add] <;> simp <;> omega
    · rw [hi]
      cases b <;> rfl
    · exact absurd (Nat.lt_of_lt_of_le hown hle) (by rw [h0]; exact Nat.lt_irrefl 0)
  · show (w.data.dup b).pipe.mayWait c
    rw [hpipe]
    exact hw hs
  · show Runs _ C i (if w.data.ref b < 1 then _ else _) _ _ _
    rw [if_neg (Nat.not_lt.mpr (Nat.lt_of_lt_of_le hown hle))]
    exact runs_ret fun _ _ => ⟨rfl, trivial⟩

theorem runs_fileclose (hproc : ∀ j, j ∈ proc) (e : Ends) (b : Bool) (hown : 0 < e.count b) :
    Runs (pipeWatch strict) C i (fileclose i proc b) (.out ⟨e, none⟩) (fun _ => True)
      fun _ t' _ => t' = .out ⟨e.remove b, none⟩ ∧ True := by
  apply runs_data (f := fun d : PipeFiles => d.drop b) rfl rfl
  intro w T hI hT _ _
  have hi : (T i).own = ⟨e, none⟩ := by rw [hT]; rfl
  have hkept : PipeKept w.data fun j => (T j).own := hI.own
  have hle := hkept.count_le i b
  rw [hi] at hle
  have hpos : 0 < w.data.ref b := Nat.lt_of_lt_of_le hown hle
  have hd : w.data.drop b = w.data.setRef b (w.data.ref b - 1) := if_neg (Nat.not_lt.mpr hpos)
  have hpipe : (w.data.drop b).pipe = w.data.pipe := by
    rw [hd]
    cases b <;> rfl
  refine ⟨⟨e.remove b, if w.data.ref b - 1 > 0 then none else some b⟩, fun _ _ => False, fun _ => True, ?_, trivial,
    .inr ⟨hpipe, fun _ => trivial⟩, fun c j _ hw => .inl fun hs => ?_, fun c j _ ho => ho.elim, ?_⟩
  · rw [hd]
    refine PipeKept.setRef hI.own ?_ ?_ (fun h0 => ?_) fun b' hb' => ?_
    · rw [hi]
      cases b <;> simp only [Ends.count, Ends.remove] at hown ⊢ <;> simp at hown ⊢ <;> omega
    · rw [hi]
      cases b <;> rfl
    · rw [h0]
    · by_cases hlast : w.data.ref b - 1 > 0
      · simp only [if_pos hlast] at hb'
        cases hb'
      · simp only [if_neg hlast] at hb'
        cases hb'
        exact ⟨rfl, Nat.eq_zero_of_not_pos hlast⟩
  · show (w.data.drop b).pipe.mayWait c
    rw [hpipe]
    exact hw hs
  · show Runs _ C i (if w.data.ref b < 1 then _ else if w.data.ref b - 1 > 0 then _ else _) _ _ _
    rw [if_neg (Nat.not_lt.mpr hpos)]
    by_cases hlast : w.data.ref b - 1 > 0
    · simp only [if_pos hlast]
      exact runs_ret fun _ _ => ⟨rfl, trivial⟩
    · simp only [if_neg hlast]
      exact runs_post (runs_pipeclose hproc (e.remove b) b) fun _ _ _ ht => ⟨ht, trivial⟩

omit [Fintype ι] [DecidableEq ι] in
/-- The token of an idle process. -/
def pipeIdle (e : Ends) : Duty ι PipeChan PipeHold := .out ⟨e, none⟩

theorem runs_call (hproc : ∀ j, j ∈ proc) (hC : ∀ l w, C l w → strict → l.paid) (e : Ends) (c : PipeCall)
    (hc : c.enabled e) :
    Runs (pipeWatch strict) C i (c.body i proc rounds e) (pipeIdle e) (fun _ => True)
      fun e' t' _ => t' = pipeIdle e' := by
  cases c with
  | read buf n =>
    refine runs_seq (fun _ => pipeIdle e) (F := fun _ _ => True) ?_ fun _ => runs_ret fun _ _ => rfl
    have hown : 0 < (⟨e, none⟩ : PipeHold).ends.reads := hc
    exact runs_post (runs_piperead hproc hown buf n) fun _ _ _ ht => ⟨ht, trivial⟩
  | write buf n =>
    refine runs_seq (fun _ => pipeIdle e) (F := fun _ _ => True) ?_ fun _ => runs_ret fun _ _ => rfl
    have hown : 0 < (⟨e, none⟩ : PipeHold).ends.writes := hc
    exact runs_post (runs_pipewrite hproc hC hown buf n) fun _ _ _ ht => ⟨ht, trivial⟩
  | dup b =>
    exact runs_seq (fun _ => pipeIdle (e.add b)) (runs_filedup e b hc) fun _ => runs_ret fun _ _ => rfl
  | close b =>
    exact runs_seq (fun _ => pipeIdle (e.remove b)) (runs_fileclose hproc e b hc) fun _ => runs_ret fun _ _ => rfl
  | kill pid =>
    exact runs_seq (fun _ => pipeIdle e) (runs_kill (.inr fun _ => trivial) pid proc) fun _ => runs_ret fun _ _ => rfl

/-- Descriptors that change hands are still counted. -/
theorem PipeKept.pass {d : PipeFiles} {own₀ : ι → PipeHold} (h : PipeKept d own₀) {j : ι} {ei ej ei' ej' : Ends}
    (hij : i ≠ j) (hi : own₀ i = ⟨ei, none⟩) (hj : own₀ j = ⟨ej, none⟩) (hp : ei.pass ej ei' ej') :
    PipeKept d (Function.update (Function.update own₀ i ⟨ei', none⟩) j ⟨ej', none⟩) := by
  refine ⟨h.stream, fun b => ?_, h.shut, fun k b hk => ?_⟩
  · have h1 := sum_update own₀ i ⟨ei', none⟩ fun x => x.ends.count b
    have h2 := sum_update (Function.update own₀ i ⟨ei', none⟩) j ⟨ej', none⟩ fun x => x.ends.count b
    have hcount : ei'.count b + ej'.count b = ei.count b + ej.count b := by
      cases b with
      | false => exact hp.1
      | true => exact hp.2
    rw [Function.update_of_ne (Ne.symm hij), hj] at h2
    rw [hi, ← h.ref b] at h1
    change _ + ei.count b = d.ref b + ei'.count b at h1
    change _ + ej.count b = _ + ej'.count b at h2
    omega
  · by_cases hkj : k = j
    · subst hkj
      rw [Function.update_self] at hk
      cases hk
    · rw [Function.update_of_ne hkj] at hk
      by_cases hki : k = i
      · subst hki
        rw [Function.update_self] at hk
        cases hk
      · rw [Function.update_of_ne hki] at hk
        exact h.closing k b hk

theorem pipe_keeps (hproc : ∀ j, j ∈ proc) (hC : ∀ l w, C l w → strict → l.paid) :
    (monitor (pipeWatch strict) C).Keeps (pipeClient proc rounds) pipeIdle where
  call _ e c hc := runs_call hproc hC e c hc
  pass w T i j ei ej ei' ej' hij hI hi hj hp := by
    apply Watched.pass hI hi hj hij
    apply PipeKept.pass hI.own hij _ _ hp
    · show (T i).own = _
      rw [hi]
      rfl
    · show (T j).own = _
      rw [hj]
      rfl

end Calls

/-- The invariant of every run. -/
theorem pipe_watched (strict : Prop) {C : PipeLabel → World ι PipeChan PipeFiles → Prop} {proc : List ι}
    {rounds : Nat} {i : ι} {procs : ι → Proc ι PipeChan} {data : Nat → UInt8}
    {g : Config PipeLabel Stop (World ι PipeChan PipeFiles) ι Ends} (hproc : ∀ j, j ∈ proc)
    (hC : ∀ l w, C l w → strict → l.paid) (hprocs : ∀ j, (procs j).chan = none)
    (h : Reach (pipeClient proc rounds) C (pipeOpened i procs data) g) : ∃ T, Watched (pipeWatch strict) g.shared T := by
  have hstart : Watched (pipeWatch strict) (pipeOpened i procs data).shared
      fun j => pipeIdle (if j = i then ⟨1, 1⟩ else ⟨0, 0⟩) := by
    have hwake : ∀ j c, ¬ Asleep (pipeOpened i procs data).shared
        (pipeIdle (if j = i then ⟨1, 1⟩ else ⟨0, 0⟩) : Duty ι PipeChan PipeHold) j c := by
      intro j c hs
      obtain ⟨_, hc⟩ | hd := hs
      · have hc : (procs j).chan = some c := hc
        rw [hprocs j] at hc
        cases hc
      · cases hd
    refine ⟨fun j => ⟨fun hj => (nomatch hj), fun hj => hj.elim⟩, fun j c hd => (nomatch hd),
      fun j c hs => absurd hs (hwake j c), fun j c hn => (nomatch hn), fun j c hs => absurd hs (hwake j c), ?_⟩
    refine ⟨.fresh data, fun b => ?_, fun b hb => ?_, fun j b hb => nomatch hb⟩
    · have hone : ∀ j, (if j = i then (⟨1, 1⟩ : Ends) else ⟨0, 0⟩).count b = if j = i then 1 else 0 := by
        intro j
        by_cases hj : j = i
        · rw [if_pos hj, if_pos hj]
          cases b <;> rfl
        · rw [if_neg hj, if_neg hj]
          cases b <;> rfl
      show _ = ∑ j, (if j = i then (⟨1, 1⟩ : Ends) else ⟨0, 0⟩).count b
      simp only [hone]
      rw [Finset.sum_ite_eq' Finset.univ i fun _ => 1, if_pos (Finset.mem_univ i)]
      cases b <;> rfl
    · cases b <;> cases hb
  obtain ⟨T, hT, _⟩ := (pipe_keeps hproc hC).sound hstart h
  exact ⟨T, hT⟩

/-- **A pipe is a FIFO byte stream**: in every interleaving the bytes taken are a prefix of
the bytes put, the ring holds the rest, at most a ring full, and each unread byte, the
`n`-th ever put, is still in its slot. -/
theorem pipe_fifo {proc : List ι} (hproc : ∀ j, j ∈ proc) (rounds : Nat) (i : ι) (procs : ι → Proc ι PipeChan)
    (hprocs : ∀ j, (procs j).chan = none) (data : Nat → UInt8)
    {g : Config PipeLabel Stop (World ι PipeChan PipeFiles) ι Ends}
    (h : Reach (pipeClient proc rounds) (fun _ _ => True) (pipeOpened i procs data) g) :
    ∃ rest, g.shared.data.pipe.put = g.shared.data.pipe.taken ++ rest ∧
      u32 (g.shared.data.pipe.nwrite + 2 ^ 32 - g.shared.data.pipe.nread) = rest.length ∧
      rest.length ≤ pipeSize ∧
      (∀ k (hk : k < rest.length), g.shared.data.pipe.data ((g.shared.data.pipe.nread + k) % pipeSize) = rest[k]) ∧
      ∀ n (hn : n < g.shared.data.pipe.put.length), g.shared.data.pipe.taken.length ≤ n →
        g.shared.data.pipe.data (n % pipeSize) = g.shared.data.pipe.put[n] := by
  obtain ⟨T, hT⟩ := pipe_watched False hproc (fun _ _ _ hs => hs.elim) hprocs h
  have hkept : PipeKept g.shared.data fun j => (T j).own := hT.own
  have hs := hkept.stream
  obtain ⟨rest, hput, hlen, hring⟩ := hs.ring
  refine ⟨rest, hput, hs.length hput hlen, hlen, hring, fun n hn htaken => ?_⟩
  have hk : n - g.shared.data.pipe.taken.length < rest.length := by
    rw [hput, List.length_append] at hn
    omega
  have hslot := hs.slot (n - g.shared.data.pipe.taken.length)
  rw [Nat.add_sub_cancel' htaken] at hslot
  rw [← hslot, hring _ hk]
  simp only [hput]
  rw [List.getElem_append_right htaken]

/-- Whoever sleeps on the pipe while its lock is free has a reason to. -/
def NoLostWakeup (w : World ι PipeChan PipeFiles) : Prop :=
  w.lk = none → ∀ j, (w.procs j).state = .sleeping →
    ((w.procs j).chan = some .nread → w.data.pipe.empty ∧ w.data.pipe.writeopen = true) ∧
    ((w.procs j).chan = some .nwrite → w.data.pipe.full ∧ w.data.pipe.readopen = true)

/-- **No wakeup is lost** in the runs in which no killed writer gives up with bytes that it has
not woken the readers for. -/
theorem pipe_wakeups {proc : List ι} (hproc : ∀ j, j ∈ proc) (rounds : Nat) (i : ι) (procs : ι → Proc ι PipeChan)
    (hprocs : ∀ j, (procs j).chan = none) (data : Nat → UInt8)
    {g : Config PipeLabel Stop (World ι PipeChan PipeFiles) ι Ends}
    (h : Reach (pipeClient proc rounds) (fun l _ => l.paid) (pipeOpened i procs data) g) : NoLostWakeup g.shared := by
  obtain ⟨T, hT⟩ := pipe_watched True hproc (fun _ _ hl _ => hl) hprocs h
  intro hlk j hs
  constructor
  · intro hc
    exact (hT.quiet hlk hs hc).1 trivial
  · intro hc
    exact (hT.quiet hlk hs hc).1 trivial

/-! ### Runs -/

instance (proc : List ι) (rounds : Nat) (e : Ends) : (c : PipeCall) → Decidable ((pipeClient proc rounds).enabled e c)
  | .read _ _ => inferInstanceAs (Decidable (0 < e.reads))
  | .write _ _ => inferInstanceAs (Decidable (0 < e.writes))
  | .dup b | .close b => inferInstanceAs (Decidable (0 < e.count b))
  | .kill _ => inferInstanceAs (Decidable True)

instance (proc : List ι) (rounds : Nat) (e₁ e₂ e₁' e₂' : Ends) :
    Decidable ((pipeClient proc rounds).pass e₁ e₂ e₁' e₂') :=
  inferInstanceAs (Decidable (_ ∧ _))

/-- A reader, a writer and a third process. -/
def threeProcs (j : Fin 3) : Proc (Fin 3) PipeChan := ⟨.running, none, false, j.val + 1, none⟩

def zeroBuf : UserBuf := ⟨fun _ => 0, fun _ => true⟩

/-- The reader falls asleep on the empty pipe; the writer is killed after it began to write
513 bytes, puts 512 and gives up. -/
def killedWriter : List (Move (Fin 3) Ends PipeCall) :=
  [.pass 0 1 ⟨1, 0⟩ ⟨0, 1⟩, .begin 0 (.read zeroBuf 1), .acts 0 7, .begin 1 (.write zeroBuf 513),
    .begin 2 (.kill 2), .acts 2 2, .acts 1 1029]

/-- What the schedule comes to: the reader sleeps, and the ring is full. -/
def Stranded (g : Config PipeLabel Stop (World (Fin 3) PipeChan PipeFiles) (Fin 3) Ends) : Prop :=
  g.shared.lk = none ∧ (g.shared.procs 0).state = .sleeping ∧ (g.shared.procs 0).chan = some .nread ∧
    g.shared.data.pipe.nread = 0 ∧ g.shared.data.pipe.nwrite = 512

instance : DecidablePred Stranded := fun _ => inferInstanceAs (Decidable (_ ∧ _ ∧ _ ∧ _ ∧ _))

theorem stranded : ∃ g, Reach (pipeClient [0, 1, 2] 1) (fun _ _ => True)
    (pipeOpened (0 : Fin 3) threeProcs fun _ => 0) g ∧ Stranded g :=
  Reach.of_play killedWriter (by decide +kernel)

theorem not_noLostWakeup : ¬ ∀ g, Reach (pipeClient [0, 1, 2] 1) (fun _ _ => True)
    (pipeOpened (0 : Fin 3) threeProcs fun _ => 0) g → NoLostWakeup g.shared := by
  intro h
  obtain ⟨g, hg, hlk, hs, hc, hr, hw⟩ := stranded
  have hempty : g.shared.data.pipe.nread = g.shared.data.pipe.nwrite := ((h g hg hlk 0 hs).1 hc).1
  rw [hr, hw] at hempty
  cases hempty

/-- The bytes of the stranded pipe are in order all the same. -/
theorem pipe_fifo_stranded : ∃ g, Reach (pipeClient [0, 1, 2] 1) (fun _ _ => True)
    (pipeOpened (0 : Fin 3) threeProcs fun _ => 0) g ∧
      ∃ rest, g.shared.data.pipe.put = g.shared.data.pipe.taken ++ rest ∧ rest.length = 512 := by
  obtain ⟨g, hg, _, _, _, hr, hw⟩ := stranded
  obtain ⟨rest, hput, hlen, _⟩ := pipe_fifo (by decide) 1 0 threeProcs (fun _ => rfl) (fun _ => 0) hg
  rw [hr, hw] at hlen
  exact ⟨g, hg, rest, hput, hlen.symm⟩

instance : DecidablePred PipeLabel.paid
  | .plain => inferInstanceAs (Decidable True)
  | .giveUp m => inferInstanceAs (Decidable (m = 0))

/-- Nobody is killed: the writer fills the ring, wakes the reader and sleeps. -/
def slowReader : List (Move (Fin 3) Ends PipeCall) :=
  [.pass 0 1 ⟨1, 0⟩ ⟨0, 1⟩, .begin 0 (.read zeroBuf 1), .acts 0 7, .begin 1 (.write zeroBuf 513), .acts 1 1034]

theorem pipe_wakeups_slowReader : ∃ g, Reach (pipeClient [0, 1, 2] 1) (fun l _ => l.paid)
    (pipeOpened (0 : Fin 3) threeProcs fun _ => 0) g ∧ (g.shared.procs 1).state = .sleeping ∧ NoLostWakeup g.shared := by
  have hplay : ∃ g, Reach (pipeClient [0, 1, 2] 1) (fun l _ => l.paid) (pipeOpened (0 : Fin 3) threeProcs fun _ => 0) g ∧
      (g.shared.procs 1).state = .sleeping := Reach.of_play slowReader (by decide +kernel)
  obtain ⟨g, hg, hs⟩ := hplay
  exact ⟨g, hg, hs, pipe_wakeups (by decide) 1 0 threeProcs (fun _ => rfl) (fun _ => 0) hg⟩

end Farron
