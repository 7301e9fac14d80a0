import Farron.Console.Discipline
import Farron.Pipe.Reading

/-! Reads that fault (`reads_deliver`).

`consoleread`, too, moves its index before it copies the byte out, and a reader that is killed while it
waits for more returns -1 whatever it has taken (`Deliverable`). A reader that is woken goes on with
`consolereadRest`, in whatever state it finds the console. -/
namespace Farron
open Resumption Ring
variable {ι : Type} [DecidableEq ι]

/-! ### The contents of the buffer -/

namespace Console
variable {d : Console ι}

def Words (d : Console ι) : Prop := d.r < 2 ^ 32 ∧ d.w < 2 ^ 32

/-- The bytes that are still to be read. -/
def contents (d : Console ι) : List UInt8 := listing inputBuf d.buf d.r (ahead d.r d.w)

omit [DecidableEq ι] in
theorem contents_empty (h : d.r = d.w) : d.contents = [] := by
  have hlen : ahead d.r d.w = 0 := by
    unfold ahead u32
    omega
  unfold contents
  rw [hlen]
  rfl

omit [DecidableEq ι] in
theorem take_words (h : d.Words) (i : ι) : (d.take i).Words := ⟨Nat.mod_lt _ (by decide), h.2⟩

omit [DecidableEq ι] in
theorem contents_take (hw : d.Words) (h : d.r ≠ d.w) (i : ι) : d.contents = d.next :: (d.take i).contents := by
  obtain ⟨hr, hwr⟩ := hw
  have hlen : ahead d.r d.w = ahead (u32 (d.r + 1)) d.w + 1 := by
    unfold ahead u32
    omega
  have hrest : (d.take i).contents = listing inputBuf d.buf (d.r + 1) (ahead (u32 (d.r + 1)) d.w) :=
    listing_mod ⟨2 ^ 25, by decide⟩ d.buf (d.r + 1) _
  rw [hrest]
  unfold contents
  rw [hlen, listing_succ]
  rfl

omit [DecidableEq ι] in
theorem putBack_words (hw : d.Words) : d.putBack = d := by
  have hr : u32 (u32 (d.r + 1) + 2 ^ 32 - 1) = d.r := by
    have := hw.1
    unfold u32
    omega
  unfold putBack
  rw [hr]

end Console

/-! ### What a read delivers -/

section Delivers
variable (i : ι) (rounds : Nat) (ok : Nat → Bool)

/-- `consoleread` with the lock, which wants `want` bytes, has come to `x` and has `n` left. -/
def consolereadRest (want : Int) (n : Nat) (x : Part) : ConsoleCode ι ConsoleRead := do
  let r ← consolereadLoop i rounds ok want.toNat n x
  if r.1 = true then
    release i
    return ⟨want, r.2.got.length, r.2⟩
  else return ⟨want, -1, r.2⟩

theorem consoleread_eq (want : Int) : consoleread i rounds ok want =
    acquire i >>= fun _ => consolereadRest i rounds ok want want.toNat ⟨[], [], none⟩ := rfl

/-- A read that had stored `got` before: if it returns -1, nothing has ever been taken; else what has been
removed is what it has stored, but for a mark that is all there is. -/
def ConsoleDelivers (got : List UInt8) (w : World ι ConsoleChan (Console ι)) (y : ConsoleRead)
    (w' : World ι ConsoleChan (Console ι)) : Prop :=
  if y.ret = -1 then got = [] ∧ w'.data = w.data
  else y.ret = y.part.got.length ∧ ∃ more, y.part.got = got ++ more ∧
    (w.data.contents = more ++ w'.data.contents ∨ y.part.got = [] ∧ w.data.contents = ctrlD :: w'.data.contents)

/-- Every byte of `l` that the read gets to, `n` at most, can be written, the first of them at `k`; and if it
runs out of bytes and is killed, it has none. -/
def Deliverable (killed : Bool) : Nat → Nat → List UInt8 → Prop
  | 0, _, _ => True
  | _ + 1, k, [] => killed = true → k = 0
  | n + 1, k, c :: l => c = ctrlD ∨ ok k = true ∧ (c = newline ∨ Deliverable killed n (k + 1) l)

/-- The condition on the state, for a read that has stored `k` bytes. -/
def ConsoleDeliverable (n k : Nat) (w : World ι ConsoleChan (Console ι)) : Prop :=
  Deliverable ok (w.procs i).killed n k w.data.contents

/-- How a round of the loop ends, and what the next one goes on with. -/
inductive ReadRound (target n : Nat) (x : Part) (w : World ι ConsoleChan (Console ι)) :
    Bool → Part → World ι ConsoleChan (Console ι) → Prop
  | gaveUp {w'} (hdata : w'.data = w.data) (hempty : w.data.contents = []) (hkill : (w.procs i).killed = true) :
    ReadRound target n x w false x w'
  | left {y l w'} (hgot : y.got = x.got) (hdata : w'.data = w.data) (hcontents : w.data.contents = ctrlD :: l) :
    ReadRound target n x w true y w'
  | mark {y w'} (hgot : y.got = x.got) (hlast : ¬ n + 1 < target) (hcontents : w.data.contents = ctrlD :: w'.data.contents) :
    ReadRound target n x w true y w'
  | fault {y w' c} (hgot : y.got = x.got) (hc : c ≠ ctrlD) (hok : ¬ ok x.got.length = true)
    (hcontents : w.data.contents = c :: w'.data.contents) : ReadRound target n x w true y w'
  | line {y w'} (hgot : y.got = x.got ++ [newline]) (hok : ok x.got.length = true)
    (hcontents : w.data.contents = newline :: w'.data.contents) : ReadRound target n x w true y w'
  | next {b y x' w₁ w' c} (hgot : x'.got = x.got ++ [c]) (hc : c ≠ ctrlD) (hnl : c ≠ newline) (hok : ok x.got.length = true)
    (hcontents : w.data.contents = c :: w₁.data.contents) (hwords : w₁.data.Words) (hprocs : w₁.procs = w.procs)
    (hrest : (consolereadLoop i rounds ok target n x').run w₁ = .done (b, y) w') : ReadRound target n x w b y w'

variable {w w' : World ι ConsoleChan (Console ι)}

theorem waitInput_run (took n : Nat) {b : Bool} (h : (waitInput i took n).run w = .done b w') :
    (b = true → w' = w ∧ w.data.r ≠ w.data.w) ∧
      (b = false → w'.data = w.data ∧ w.data.r = w.data.w ∧ (w.procs i).killed = true) := by
  cases n with
  | zero => cases h
  | succ n =>
    unfold waitInput at h
    obtain ⟨d, w₁, hd, h⟩ := Prog.run_bind_inv h
    cases hd
    by_cases hwait : w.data.r = w.data.w
    · rw [if_pos hwait] at h
      obtain ⟨k, w₁, hk, h⟩ := Prog.run_bind_inv h
      cases hk
      cases hkill : (w.procs i).killed with
      | true =>
        rw [hkill, if_pos rfl] at h
        obtain ⟨_, w₁, hgive, h⟩ := Prog.run_bind_inv h
        cases hgive
        obtain ⟨_, w₁, hrel, h⟩ := Prog.run_bind_inv h
        cases h
        exact ⟨fun hb => (by cases hb), fun _ => ⟨sameData_run (within_release sameData_framed i) hrel, hwait, rfl⟩⟩
      | false =>
        rw [hkill, if_neg (by decide)] at h
        exact absurd h (sleep_run i _)
    · rw [if_neg hwait] at h
      cases h
      exact ⟨fun _ => ⟨rfl, hwait⟩, fun hb => by cases hb⟩

theorem readRound_run {target n : Nat} {x y : Part} {b : Bool} (hw : w.data.Words)
    (h : (consolereadLoop i rounds ok target (n + 1) x).run w = .done (b, y) w') : ReadRound i rounds ok target n x w b y w' := by
  unfold consolereadLoop at h
  obtain ⟨c, w₁, hwait, hc⟩ := Prog.run_bind_inv h
  clear h
  obtain ⟨hgo, hstop⟩ := waitInput_run i _ _ hwait
  cases c with
  | false =>
    obtain ⟨hdata, hempty, hkill⟩ := hstop rfl
    cases hc
    exact .gaveUp hdata (Console.contents_empty hempty) hkill
  | true =>
    obtain ⟨rfl, hne⟩ := hgo rfl
    rw [if_pos (rfl : true = true)] at hc
    obtain ⟨d, w₂, hd, h⟩ := Prog.run_bind_inv hc
    cases hd
    have hcontents := Console.contents_take hw hne i
    by_cases hmark : w₁.data.next = ctrlD
    · rw [if_pos hmark] at h
      by_cases hlast : n + 1 < target
      · rw [if_pos hlast] at h
        obtain ⟨_, w₂, hback, h⟩ := Prog.run_bind_inv h
        cases hback
        cases h
        exact .left rfl (Console.putBack_words hw) (hmark ▸ hcontents)
      · rw [if_neg hlast] at h
        obtain ⟨_, w₂, htake, h⟩ := Prog.run_bind_inv h
        cases htake
        cases h
        exact .mark rfl hlast (hmark ▸ hcontents)
    · rw [if_neg hmark] at h
      obtain ⟨_, w₂, htake, h⟩ := Prog.run_bind_inv h
      have hdata : w₂.data = w₁.data.take i := by
        cases htake
        rfl
      have hprocs : w₂.procs = w₁.procs := by
        cases htake
        rfl
      rw [← hdata] at hcontents
      by_cases hok : ok x.got.length = true
      · rw [if_pos hok] at h
        by_cases hnl : w₁.data.next = newline
        · rw [if_pos hnl, hnl] at h
          cases h
          exact .line rfl hok (hnl ▸ hcontents)
        · rw [if_neg hnl] at h
          exact .next rfl hmark hnl hok hcontents (hdata ▸ Console.take_words hw i) hprocs h
      · rw [if_neg hok] at h
        cases h
        exact .fault rfl hmark hok hcontents

/-- What the loop has done when it ends, with the lock or without. -/
def LoopDelivers (got more : List UInt8) (w : World ι ConsoleChan (Console ι)) (b : Bool)
    (w' : World ι ConsoleChan (Console ι)) : Prop :=
  (b = true → w.data.contents = more ++ w'.data.contents ∨ got ++ more = [] ∧ w.data.contents = ctrlD :: w'.data.contents) ∧
    (b = false → got = [] ∧ w'.data = w.data)

omit [DecidableEq ι] in
/-- A byte more was stored first. -/
theorem loopDelivers_cons {got more : List UInt8} {c : UInt8} {b : Bool} {w₁ : World ι ConsoleChan (Console ι)}
    (hcontents : w.data.contents = c :: w₁.data.contents) (hrun : b = false → w'.data.contents = []) :
    LoopDelivers got (c :: more) w b w' ↔ LoopDelivers (got ++ [c]) more w₁ b w' := by
  have hsome : got ++ c :: more ≠ [] := List.append_ne_nil_of_right_ne_nil _ (List.cons_ne_nil _ _)
  have hsome' : got ++ [c] ≠ [] := List.append_ne_nil_of_right_ne_nil _ (List.cons_ne_nil _ _)
  have hsome'' : got ++ [c] ++ more ≠ [] := List.append_ne_nil_of_left_ne_nil hsome' _
  unfold LoopDelivers
  cases b with
  | true =>
    refine ⟨fun hd => ⟨fun _ => .inl ?_, fun hb => by cases hb⟩, fun hd => ⟨fun _ => .inl ?_, fun hb => by cases hb⟩⟩
    · have he := (hd.1 rfl).resolve_right fun h => hsome h.1
      rw [hcontents] at he
      exact (List.cons.inj he).2
    · have he := (hd.1 rfl).resolve_right fun h => hsome'' h.1
      rw [hcontents, he]
      rfl
  | false =>
    refine iff_of_false (fun hd => ?_) fun hd => hsome' (hd.2 rfl).1
    have hrest := hrun rfl
    rw [(hd.2 rfl).2, hcontents] at hrest
    cases hrest

theorem consolereadLoop_run (target n : Nat) (x : Part) (hleft : x.got.length + n = target) (hw : w.data.Words)
    {b : Bool} {y : Part} (h : (consolereadLoop i rounds ok target n x).run w = .done (b, y) w') :
    ∃ more, y.got = x.got ++ more ∧ (b = false → w'.data.contents = []) ∧
      (LoopDelivers x.got more w b w' ↔ ConsoleDeliverable i ok n x.got.length w) := by
  induction n generalizing x w with
  | zero =>
    cases h
    refine ⟨[], (List.append_nil _).symm, fun hb => (by cases hb), fun _ => trivial, fun _ => ⟨fun _ => .inl ?_, fun hb => by cases hb⟩⟩
    exact (List.nil_append _).symm
  | succ n ih =>
    unfold ConsoleDeliverable
    cases readRound_run i rounds ok hw h with
    | gaveUp hdata hempty hkill =>
      refine ⟨[], (List.append_nil _).symm, fun _ => by rw [hdata]; exact hempty, ?_⟩
      rw [hempty, hkill]
      refine ⟨fun hd _ => ?_, fun hk => ⟨fun hb => (by cases hb), fun _ => ⟨List.length_eq_zero_iff.mp (hk rfl), hdata⟩⟩⟩
      rw [(hd.2 rfl).1]
      rfl
    | left hgot hdata hcontents =>
      refine ⟨[], by rw [hgot, List.append_nil], fun hb => (by cases hb), iff_of_true ⟨fun _ => .inl ?_, fun hb => by cases hb⟩ ?_⟩
      · rw [hdata, List.nil_append]
      · rw [hcontents]
        exact .inl rfl
    | mark hgot hlast hcontents =>
      have hnone : x.got = [] := List.length_eq_zero_iff.mp (by omega)
      refine ⟨[], by rw [hgot, List.append_nil], fun hb => (by cases hb),
        iff_of_true ⟨fun _ => .inr ⟨?_, hcontents⟩, fun hb => by cases hb⟩ ?_⟩
      · rw [hnone]
        rfl
      · rw [hcontents]
        exact .inl rfl
    | fault hgot hc hok hcontents =>
      refine ⟨[], by rw [hgot, List.append_nil], fun hb => (by cases hb), iff_of_false (fun hd => ?_) fun hd => ?_⟩
      · obtain he | ⟨-, he⟩ := hd.1 rfl
        · have hlen := congrArg List.length (hcontents.symm.trans he)
          rw [List.length_cons, List.nil_append] at hlen
          omega
        · exact hc (List.cons.inj (hcontents.symm.trans he)).1
      · rw [hcontents] at hd
        exact hok (hd.resolve_left hc).1
    | line hgot hok hcontents =>
      refine ⟨[newline], hgot, fun hb => (by cases hb), iff_of_true ⟨fun _ => .inl hcontents, fun hb => by cases hb⟩ ?_⟩
      rw [hcontents]
      exact .inr ⟨hok, .inl rfl⟩
    | @next b y x' w₁ w' c hgot hc hnl hok hcontents hwords hprocs hrest =>
      have hlen : x'.got.length = x.got.length + 1 := by rw [hgot, List.length_append, List.length_singleton]
      obtain ⟨more, hmore, hrun, hiff⟩ := ih x' (by omega) hwords hrest
      refine ⟨c :: more, by rw [hmore, hgot, List.append_assoc]; rfl, hrun, ?_⟩
      have hcond : Deliverable ok (w.procs i).killed (n + 1) x.got.length (c :: w₁.data.contents) ↔
          ConsoleDeliverable i ok n x'.got.length w₁ := by
        unfold ConsoleDeliverable
        rw [hlen, hprocs]
        show c = ctrlD ∨ ok x.got.length = true ∧ (c = newline ∨ _) ↔ _
        rw [or_iff_right hc, and_iff_right hok, or_iff_right hnl]
      rw [hcontents, hcond, ← hiff, hgot]
      exact loopDelivers_cons hcontents hrun

/-- A read with the lock, from wherever it is. -/
theorem consolereadRest_delivers (want : Int) (n : Nat) (x : Part) (hleft : x.got.length + n = want.toNat) :
    (consolereadRest i rounds ok want n x).EndsIff (fun w => w.data.Words) (ConsoleDeliverable i ok n x.got.length)
      (ConsoleDelivers x.got) := by
  intro w y w' hw h
  obtain ⟨r, w₁, hloop, hc⟩ := Prog.run_bind_inv h
  obtain ⟨b, z⟩ := r
  obtain ⟨more, hgot, -, hiff⟩ := consolereadLoop_run i rounds ok want.toNat n x hleft hw hloop
  cases b with
  | false =>
    cases hc
    unfold ConsoleDelivers
    rw [if_pos rfl, ← hiff]
    exact ⟨fun hd => ⟨fun hb => (by cases hb), fun _ => hd⟩, fun hd => hd.2 rfl⟩
  | true =>
    obtain ⟨_, w₂, hrel, hc⟩ := Prog.run_bind_inv hc
    cases hc
    have hdata := sameData_run (within_release sameData_framed i) hrel
    have hcount : (z.got.length : Int) ≠ -1 := by omega
    unfold ConsoleDelivers
    rw [if_neg hcount, ← hiff, hdata]
    refine ⟨fun hd => ⟨fun _ => ?_, fun hb => by cases hb⟩, fun hd => ⟨rfl, more, hgot, ?_⟩⟩
    · obtain ⟨-, more', hmore, hd⟩ := hd
      have hsame : more' = more := List.append_cancel_left (hmore.symm.trans hgot)
      rw [hsame] at hd
      exact hd.imp id fun hd => ⟨hgot.symm.trans hd.1, hd.2⟩
    · exact (hd.1 rfl).imp id fun hd => ⟨hgot.trans hd.1, hd.2⟩

theorem consoleread_delivers (want : Int) :
    (consoleread i rounds ok want).EndsIff (fun w => w.data.Words) (ConsoleDeliverable i ok want.toNat 0)
      (ConsoleDelivers []) := by
  intro w y w' hw h
  rw [consoleread_eq] at h
  obtain ⟨_, w₁, hacq, hc⟩ := Prog.run_bind_inv h
  have hdata : w₁.data = w.data := sameData_run (within_acquire sameData_framed i) hacq
  have hprocs : w₁.procs = w.procs := by
    unfold acquire at hacq
    rw [Prog.run_act] at hacq
    by_cases hfree : w.lk = none
    · rw [if_pos hfree] at hacq
      have hother : w.lk ≠ some i := by
        rw [hfree]
        exact fun h => by cases h
      dsimp only at hacq
      rw [if_neg hother] at hacq
      cases hacq
      rfl
    · rw [if_neg hfree] at hacq
      by_cases hheld : w.lk = some i
      · rw [if_pos hheld] at hacq
        dsimp only at hacq
        rw [if_pos hheld] at hacq
        cases hacq
      · rw [if_neg hheld] at hacq
        cases hacq
  have hwords : w₁.data.Words := by
    rw [hdata]
    exact hw
  have hrest := consolereadRest_delivers i rounds ok want want.toNat ⟨[], [], none⟩ (Nat.zero_add _) w₁ y w' hwords hc
  unfold ConsoleDelivers ConsoleDeliverable at hrest ⊢
  rw [hdata, hprocs] at hrest
  exact hrest

end Delivers

/-- **A read removes what it delivers** if and only if every byte that it gets to can be written and, of the
console, it is not killed when it runs out of bytes with some taken. So it is of a whole read, and
of what a read does after it has been woken. -/
theorem reads_deliver (i : ι) (proc : List ι) (rounds : Nat) (buf : UserBuf) (n : Int) :
    piperead i proc rounds buf n = (readOut i proc rounds buf.ok n >>= fun r => .ret (readCount r)) ∧
      (readOut i proc rounds buf.ok n).EndsIff (fun w => w.data.pipe.Words) (PipeWritable buf.ok n) PipeDelivers ∧
      (readHeld i proc rounds buf.ok n).EndsIff (fun w => w.data.pipe.Words) (PipeWritable buf.ok n) PipeDelivers ∧
      (consoleread i rounds buf.ok n).EndsIff (fun w => w.data.Words) (ConsoleDeliverable i buf.ok n.toNat 0)
        (ConsoleDelivers []) ∧
      ∀ left x, x.got.length + left = n.toNat → (consolereadRest i rounds buf.ok n left x).EndsIff (fun w => w.data.Words)
        (ConsoleDeliverable i buf.ok left x.got.length) (ConsoleDelivers x.got) :=
  ⟨piperead_eq i proc rounds buf n, readOut_delivers i proc rounds buf.ok n, readHeld_delivers i proc rounds buf.ok n,
    consoleread_delivers i rounds buf.ok n, fun left x hleft => consolereadRest_delivers i rounds buf.ok n left x hleft⟩

/-! ### Runs -/

/-- A process that has been killed. -/
def killedProc {χ : Type} (_ : Fin 1) : Proc (Fin 1) χ := ⟨.running, none, true, 1, none⟩

/-- One byte in the pipe, or in the console's buffer. -/
def onePipe : World (Fin 1) PipeChan PipeFiles := ⟨killedProc, none, ⟨⟨fun _ => 97, 0, 1, true, true, [97], []⟩, 1, 1⟩⟩
def oneConsole : World (Fin 1) ConsoleChan (Console (Fin 1)) := ⟨killedProc, none, ⟨fun _ => 97, 0, 1, 1, [97], []⟩⟩

theorem not_reads_deliver :
    (¬ ∀ w r w', w.data.pipe.Words → (readOut (0 : Fin 1) [0] 1 (fun _ => false) 1).run w = .done r w' → PipeDelivers w r w') ∧
      ¬ ∀ w y w', w.data.Words → (consoleread (0 : Fin 1) 1 (fun _ => true) 2).run w = .done y w' →
        ConsoleDelivers [] w y w' := by
  constructor
  · intro h
    have hlost : onePipe.data.pipe.contents = _ := h onePipe (some []) _ (by unfold Pipe.Words; decide) rfl
    revert hlost
    decide
  · intro h
    have hlost := h oneConsole ⟨2, -1, ⟨[97], [97], none⟩⟩ _ (by unfold Console.Words; decide) rfl
    unfold ConsoleDelivers at hlost
    rw [if_pos rfl] at hlost
    have htaken := congrArg Console.r hlost.2
    revert htaken
    decide

/-- Four bytes in the pipe, around the end of its ring, and a line in the console's buffer. -/
def fourPipe : World (Fin 1) PipeChan PipeFiles :=
  ⟨killedProc, none, ⟨⟨fun o => UInt8.ofNat o, 510, 514, true, true, [], []⟩, 1, 1⟩⟩
def lineConsole : World (Fin 1) ConsoleChan (Console (Fin 1)) := ⟨killedProc, none, ⟨fun o => [97, 98, 10].getD o 0, 0, 3, 3, [], []⟩⟩

/-- Three bytes are read from the pipe, and the line from the console. -/
theorem reads_deliver_some :
    (∃ w', (readOut (0 : Fin 1) [0] 1 (fun _ => true) 3).run fourPipe = .done (some [254, 255, 0]) w' ∧
      fourPipe.data.pipe.contents = [254, 255, 0] ++ w'.data.pipe.contents ∧ w'.data.pipe.contents = [1]) ∧
    ∃ y w', (consoleread (0 : Fin 1) 1 (fun _ => true) 8).run lineConsole = .done y w' ∧ y.ret = 3 ∧ y.part.got = [97, 98, 10] ∧
      ConsoleDelivers [] lineConsole y w' := by
  obtain ⟨-, hpipe, -⟩ := reads_deliver (0 : Fin 1) [0] 1 ⟨fun _ => 0, fun _ => true⟩ 3
  obtain ⟨-, -, -, hconsole, -⟩ := reads_deliver (0 : Fin 1) [0] 1 ⟨fun _ => 0, fun _ => true⟩ 8
  have hfour := hpipe fourPipe (some [254, 255, 0]) _ (by unfold Pipe.Words; decide) rfl
  have hline := hconsole lineConsole ⟨8, 3, ⟨[97, 98, 10], [97, 98, 10], none⟩⟩ _ (by unfold Console.Words; decide) rfl
  have hcontents : lineConsole.data.contents = [97, 98, 10] := by decide
  refine ⟨⟨_, rfl, hfour.mpr fun _ _ _ => rfl, by decide⟩, _, _, rfl, rfl, rfl, hline.mpr ?_⟩
  unfold ConsoleDeliverable
  rw [hcontents]
  exact .inr ⟨rfl, .inr (.inr ⟨rfl, .inr (.inr ⟨rfl, .inl rfl⟩)⟩)⟩

end Farron
