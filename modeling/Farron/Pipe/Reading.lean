import Farron.Kernel.Frames
import Farron.Pipe.Pipe
import Farron.Resumption.Alone
import Farron.Ring.Window

/-! What `piperead` takes out of a pipe, and what it stores.

`readOut` is `piperead` with the bytes that it has stored as its result (`piperead_eq`). The index
moves before the byte is copied out, so that a byte that cannot be is lost (`readOut_delivers`).
A reader that is woken goes on with `readHeld`, in whatever state it finds the pipe. -/
namespace Farron
open Resumption Ring
variable {ι : Type} [DecidableEq ι]

/-! ### Running alone -/

section Alone
variable {L χ δ : Type} [Inhabited L] {w w' : World ι χ δ}

/-- A process that sleeps alone is not woken. -/
theorem sleep_run (i : ι) (c : χ) {β : Type} {q : Unit → Kernel L ι χ δ β} {b : β} : (sleep i c >>= q).run w ≠ .done b w' := by
  intro h
  obtain ⟨_, w₁, h₁, -⟩ := Prog.run_bind_inv h
  rw [sleep_eq] at h₁
  obtain ⟨_, w₂, -, h₂⟩ := Prog.run_bind_inv h₁
  obtain ⟨_, w₃, -, h₃⟩ := Prog.run_bind_inv h₂
  obtain ⟨_, w₄, h₄, -⟩ := Prog.run_bind_inv h₃
  unfold slumber releaseProc resume at h₄
  simp only [Prog.change, Prog.act_bind, Prog.ret_bind, Prog.run_act, World.setProc_same] at h₄
  rw [if_neg (by exact fun h => by cases h.2)] at h₄
  cases h₄

/-- The sections that leave the data alone. -/
def SameData (_ : L) (w w' : World ι χ δ) : Prop := w'.data = w.data

omit [DecidableEq ι] in
theorem sameData_framed (w w' : World ι χ δ) (h : w.Framed w') : SameData (default : L) w w' := h.data

omit [DecidableEq ι] [Inhabited L] in
theorem sameData_run {α : Type} {p : Kernel L ι χ δ α} (hp : p.Within SameData fun _ => True) {a : α}
    (h : p.run w = .done a w') : w'.data = w.data :=
  Prog.Within.run_done (R := fun w w' : World ι χ δ => w'.data = w.data) (fun _ => rfl) (fun _ _ _ h₁ h₂ => h₂.trans h₁) hp h

end Alone

/-! ### The contents of a pipe -/

namespace Pipe

/-- The counters are words. -/
def Words (p : Pipe) : Prop := p.nread < 2 ^ 32 ∧ p.nwrite < 2 ^ 32

/-- The bytes between the counters, in order. -/
def contents (p : Pipe) : List UInt8 := listing pipeSize p.data p.nread (u32 (p.nwrite + 2 ^ 32 - p.nread))

theorem contents_empty {p : Pipe} (h : p.empty) : p.contents = [] := by
  have hlen : u32 (p.nwrite + 2 ^ 32 - p.nread) = 0 := by
    have : p.nread = p.nwrite := h
    unfold u32
    omega
  unfold contents
  rw [hlen]
  rfl

theorem drop_words {p : Pipe} (h : p.Words) : p.drop.Words := ⟨Nat.mod_lt _ (by decide), h.2⟩

theorem contents_drop {p : Pipe} (hw : p.Words) (h : ¬ p.empty) : p.contents = p.next :: p.drop.contents := by
  obtain ⟨hread, hwrite⟩ := hw
  have hne : p.nread ≠ p.nwrite := h
  have hlen : u32 (p.nwrite + 2 ^ 32 - p.nread) = u32 (p.nwrite + 2 ^ 32 - u32 (p.nread + 1)) + 1 := by
    unfold u32
    omega
  have hrest : p.drop.contents = listing pipeSize p.data (p.nread + 1) (u32 (p.nwrite + 2 ^ 32 - u32 (p.nread + 1))) :=
    listing_mod ⟨2 ^ 23, by decide⟩ p.data (p.nread + 1) _
  rw [hrest]
  unfold contents
  rw [hlen, listing_succ]
  rfl

end Pipe

/-! ### The code -/

section Code
variable (i : ι) (proc : List ι) (rounds : Nat) (ok : Nat → Bool)

/-- The loop of `piperead`, with the bytes stored so far; `ok j` says whether byte `j` at the address can be
written. -/
def readOutLoop : Nat → List UInt8 → PipeCode ι (List UInt8)
  | 0, got => return got
  | n + 1, got => do
    let d ← fetch
    if d.pipe.empty then return got
    else
      onPipe Pipe.drop
      if ok got.length then readOutLoop n (got ++ [d.pipe.next]) else return got

/-- `piperead` with the lock. -/
def readHeld (n : Int) : PipeCode ι (Option (List UInt8)) := do
  if ← waitByte i rounds then
    let got ← readOutLoop ok n.toNat []
    wakeup .nwrite proc
    release i
    return some got
  else return none

def readOut (n : Int) : PipeCode ι (Option (List UInt8)) := do
  acquire i
  readHeld i proc rounds ok n

/-- What `piperead` returns. -/
def readCount (r : Option (List UInt8)) : Int := r.elim (-1) fun got => got.length

end Code

section Equal
variable (i : ι) (proc : List ι) (rounds : Nat) (buf : UserBuf)

omit [DecidableEq ι] in
theorem pipereadLoop_eq (n : Nat) (got : List UInt8) : (pipereadLoop buf n got.length : PipeCode ι Nat) =
    readOutLoop buf.ok n got >>= fun l => .ret l.length := by
  induction n generalizing got with
  | zero => rfl
  | succ n ih =>
    unfold pipereadLoop readOutLoop
    rw [Prog.bind_assoc]
    refine congrArg (fetch >>= ·) (funext fun d => ?_)
    split_ifs
    · rfl
    · rw [Prog.bind_assoc]
      refine congrArg (onPipe Pipe.drop >>= ·) (funext fun _ => ?_)
      have := ih (got ++ [d.pipe.next])
      rw [List.length_append, List.length_singleton] at this
      exact this
    · rfl

theorem piperead_eq (n : Int) :
    piperead i proc rounds buf n = readOut i proc rounds buf.ok n >>= fun r => .ret (readCount r) := by
  unfold piperead readOut readHeld
  rw [Prog.bind_assoc]
  refine congrArg (acquire i >>= ·) (funext fun _ => ?_)
  rw [Prog.bind_assoc]
  refine congrArg (waitByte i rounds >>= ·) (funext fun b => ?_)
  cases b with
  | false => rfl
  | true =>
    have hloop : (pipereadLoop buf n.toNat 0 : PipeCode ι Nat) = readOutLoop buf.ok n.toNat [] >>= fun l => .ret l.length :=
      pipereadLoop_eq buf n.toNat []
    show (pipereadLoop buf n.toNat 0 >>= fun k => wakeup .nwrite proc >>= fun _ => release i >>= fun _ => .ret (k : Int)) =
      (readOutLoop buf.ok n.toNat [] >>= fun l => wakeup .nwrite proc >>= fun _ => release i >>= fun _ => .ret (some l)) >>=
        fun r => .ret (readCount r)
    rw [hloop]
    simp only [Prog.bind_assoc, Prog.ret_bind]
    rfl

end Equal

/-! ### What a read delivers -/

/-- What a read that returns has removed is what it has stored; one that gives up leaves the pipe alone. -/
def PipeDelivers (w : World ι PipeChan PipeFiles) (r : Option (List UInt8)) (w' : World ι PipeChan PipeFiles) : Prop :=
  r.elim (w'.data.pipe = w.data.pipe) fun got => w.data.pipe.contents = got ++ w'.data.pipe.contents

/-- Every byte that the read gets to can be written. -/
def PipeWritable (ok : Nat → Bool) (n : Int) (w : World ι PipeChan PipeFiles) : Prop :=
  ∀ j, j < n.toNat → j < w.data.pipe.contents.length → ok j = true

section Delivers
variable (i : ι) (proc : List ι) (rounds : Nat) (ok : Nat → Bool) {w w' : World ι PipeChan PipeFiles}

omit [DecidableEq ι] in
/-- The loop from where it has stored `got`. -/
theorem readOutLoop_run (n : Nat) (got : List UInt8) {l : List UInt8} (hw : w.data.pipe.Words)
    (h : (readOutLoop ok n got).run w = .done l w') :
    ∃ more, l = got ++ more ∧ (w.data.pipe.contents = more ++ w'.data.pipe.contents ↔
      ∀ j, j < n → j < w.data.pipe.contents.length → ok (got.length + j) = true) := by
  induction n generalizing got w with
  | zero =>
    cases h
    exact ⟨[], (List.append_nil _).symm, fun _ j hj => absurd hj (Nat.not_lt_zero j), fun _ => (List.nil_append _).symm⟩
  | succ n ih =>
    unfold readOutLoop at h
    obtain ⟨d, w₁, hd, h⟩ := Prog.run_bind_inv h
    cases hd
    by_cases hempty : w.data.pipe.empty
    · rw [if_pos hempty] at h
      cases h
      refine ⟨[], (List.append_nil _).symm, fun _ j _ hj => ?_, fun _ => (List.nil_append _).symm⟩
      rw [Pipe.contents_empty hempty] at hj
      exact absurd hj (Nat.not_lt_zero j)
    · rw [if_neg hempty] at h
      obtain ⟨_, w₁, hdrop, h⟩ := Prog.run_bind_inv h
      have hpipe : w₁.data.pipe = w.data.pipe.drop := by
        cases hdrop
        rfl
      rw [Pipe.contents_drop hw hempty]
      by_cases hok : ok got.length = true
      · rw [if_pos hok] at h
        obtain ⟨more, hl, hiff⟩ := ih (got ++ [w.data.pipe.next]) (by rw [hpipe]; exact Pipe.drop_words hw) h
        rw [hpipe] at hiff
        refine ⟨w.data.pipe.next :: more, by rw [hl, List.append_assoc]; rfl, ?_⟩
        rw [List.cons_append, List.cons_inj_right, List.length_cons]
        rw [List.length_append, List.length_singleton] at hiff
        refine hiff.trans ⟨fun hall j hj hlen => ?_, fun hall j hj hlen => ?_⟩
        · cases j with
          | zero => exact hok
          | succ j =>
            have := hall j (by omega) (by omega)
            rw [Nat.add_assoc, Nat.add_comm 1 j] at this
            exact this
        · have := hall (j + 1) (by omega) (by omega)
          rw [Nat.add_assoc, Nat.add_comm 1 j]
          exact this
      · rw [if_neg hok] at h
        cases h
        rw [hpipe, List.length_cons]
        refine ⟨[], (List.append_nil _).symm, fun he => ?_, fun hall => ?_⟩
        · have hlen := congrArg List.length he
          rw [List.length_cons, List.nil_append] at hlen
          omega
        · exact absurd (hall 0 (by omega) (by omega)) hok

theorem waitByte_run (n : Nat) {b : Bool} (h : (waitByte i n).run w = .done b w') :
    w'.data = w.data ∧ (b = false → w.data.pipe.empty) := by
  cases n with
  | zero => cases h
  | succ n =>
    unfold waitByte at h
    obtain ⟨d, w₁, hd, h⟩ := Prog.run_bind_inv h
    cases hd
    by_cases hwait : w.data.pipe.empty ∧ w.data.pipe.writeopen = true
    · rw [if_pos hwait] at h
      obtain ⟨k, w₁, hk, h⟩ := Prog.run_bind_inv h
      cases hk
      cases hkill : (w.procs i).killed with
      | true =>
        rw [hkill, if_pos rfl] at h
        obtain ⟨_, w₁, hrel, h⟩ := Prog.run_bind_inv h
        cases h
        exact ⟨sameData_run (within_release sameData_framed i) hrel, fun _ => hwait.1⟩
      | false =>
        rw [hkill, if_neg (by decide)] at h
        exact absurd h (sleep_run i _)
    · rw [if_neg hwait] at h
      cases h
      exact ⟨rfl, fun hb => by cases hb⟩

/-- A read with the lock, from where it waits for a byte. -/
theorem readHeld_delivers (n : Int) :
    (readHeld i proc rounds ok n).EndsIff (fun w => w.data.pipe.Words) (PipeWritable ok n) PipeDelivers := by
  intro w r w' hw h
  obtain ⟨b, w₁, hwait, h⟩ := Prog.run_bind_inv h
  obtain ⟨hdata, hempty⟩ := waitByte_run i rounds hwait
  cases b with
  | false =>
    cases h
    refine ⟨fun _ j _ hj => ?_, fun _ => by unfold PipeDelivers; rw [hdata]; rfl⟩
    rw [Pipe.contents_empty (hempty rfl)] at hj
    exact absurd hj (Nat.not_lt_zero j)
  | true =>
    obtain ⟨got, w₂, hloop, h⟩ := Prog.run_bind_inv h
    obtain ⟨_, w₃, hwake, h⟩ := Prog.run_bind_inv h
    obtain ⟨_, w₄, hrel, h⟩ := Prog.run_bind_inv h
    cases h
    have hend : w'.data = w₂.data :=
      (sameData_run (within_release sameData_framed i) hrel).trans (sameData_run (within_wakeup sameData_framed _ proc) hwake)
    obtain ⟨more, hgot, hiff⟩ := readOutLoop_run ok n.toNat [] (by rw [hdata]; exact hw) hloop
    rw [List.nil_append] at hgot
    subst hgot
    rw [hdata] at hiff
    simp only [List.length_nil, Nat.zero_add] at hiff
    unfold PipeDelivers PipeWritable
    rw [hend]
    exact hiff

theorem readOut_delivers (n : Int) :
    (readOut i proc rounds ok n).EndsIff (fun w => w.data.pipe.Words) (PipeWritable ok n) PipeDelivers := by
  intro w r w' hw h
  obtain ⟨_, w₁, hacq, h⟩ := Prog.run_bind_inv h
  have hdata : w₁.data = w.data := sameData_run (within_acquire sameData_framed i) hacq
  have hwords : w₁.data.pipe.Words := by
    rw [hdata]
    exact hw
  have hheld := readHeld_delivers i proc rounds ok n w₁ r w' hwords h
  unfold PipeDelivers PipeWritable at hheld ⊢
  rw [hdata] at hheld
  exact hheld

end Delivers
end Farron
