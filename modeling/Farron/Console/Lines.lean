import Farron.Console.Discipline
import Farron.Kernel.Frames

/-! What is committed is read, in order and unchanged (`console_disciplined`).

Copies succeed and nobody who gives up has taken anything: such are the runs whose sections are
`careful`. What has been committed and taken only grows (`Console.Grows`), so that what a
configuration has committed can be found in the later ones. Only a reader that has been killed gives up, and
it stays killed (`Dead`): the reads of all others end where they should. -/
namespace Farron
open Resumption Ring
variable {ι : Type} [DecidableEq ι]

/-! ### What is committed stays -/

namespace Console

/-- The indices are in order. -/
def Ordered (d : Console ι) : Prop := ahead d.r d.w + ahead d.w d.e = ahead d.r d.e ∧ ahead d.r d.e ≤ inputBuf

omit [DecidableEq ι] in
theorem Kept.ordered {d : Console ι} (h : d.Kept) : d.Ordered := by
  obtain ⟨rest, edit, hput, he, hw⟩ := h.shows
  obtain ⟨hrw, hwe, hre, hfits⟩ := h.apart hput he hw
  refine ⟨?_, ?_⟩
  · rw [hrw, hwe, hre]
  · rw [hre]
    exact hfits

omit [DecidableEq ι] in
/-- Each byte that is still to be read is in its slot. -/
theorem Kept.slot {d : Console ι} (h : d.Kept) {n : Nat} (hn : n < d.committed.length) (htaken : d.taken.length ≤ n) :
    d.buf (n % inputBuf) = d.committed[n] := by
  obtain ⟨rest, edit, hput, he, hw⟩ := h.shows
  have hlen : (d.taken.map (·.2)).length = d.taken.length := List.length_map _
  have hk : n - d.taken.length < rest.length := by
    rw [hput, List.length_append, hlen] at hn
    omega
  have hshown := hw.shown (n - d.taken.length) (by rw [List.length_append]; omega)
  rw [Nat.add_sub_cancel' htaken, List.getElem_append_left hk] at hshown
  rw [hshown]
  simp only [hput]
  rw [List.getElem_append_right (by rw [hlen]; exact htaken)]
  simp only [hlen]

/-- The histories grow. -/
def Grows (d d' : Console ι) : Prop := d.taken <+: d'.taken ∧ d.committed <+: d'.committed

omit [DecidableEq ι] in
theorem Grows.refl (d : Console ι) : d.Grows d := ⟨List.prefix_rfl, List.prefix_rfl⟩

end Console

/-- What the sections do to the histories, and to who has been killed. -/
structure Remembers (_ : ConsoleLabel) (w w' : World ι ConsoleChan (Console ι)) : Prop where
  grows : w.data.Grows w'.data
  killed : ∀ j, (w.procs j).killed = true → (w'.procs j).killed = true

omit [DecidableEq ι] in
theorem remembers_framed (w w' : World ι ConsoleChan (Console ι)) (h : w.Framed w') : Remembers default w w' := by
  refine ⟨?_, h.killed⟩
  rw [h.data]
  exact .refl _

omit [DecidableEq ι] in
theorem within_onData {l : ConsoleLabel} {f : Console ι → Console ι} (hf : ∀ d : Console ι, d.Grows (f d)) :
    (update l f : ConsoleCode ι Unit).Within Remembers fun _ => True :=
  .change _ _ fun w => ⟨hf w.data, fun _ => id⟩

omit [DecidableEq ι] in
theorem grows_same {d d' : Console ι}
    (h : d'.taken = d.taken ∧ d'.committed = d.committed ∧ d'.r = d.r ∧ d'.w = d.w) : d.Grows d' := by
  obtain ⟨htaken, hcommitted, -, -⟩ := h
  unfold Console.Grows
  rw [htaken, hcommitted]
  exact ⟨List.prefix_rfl, List.prefix_rfl⟩

omit [DecidableEq ι] in
theorem grows_take (d : Console ι) (i : ι) : d.Grows (d.take i) := ⟨List.prefix_append _ _, List.prefix_rfl⟩

omit [DecidableEq ι] in
theorem grows_putBack (d : Console ι) : d.Grows d.putBack := by
  rw [Console.putBack]
  exact ⟨List.prefix_rfl, List.prefix_rfl⟩

section Within
variable (i : ι) (proc : List ι) (rounds : Nat)

theorem within_storeChar (c : UInt8) : (storeChar proc c : ConsoleCode ι Unit).Within Remembers fun _ => True := by
  refine .bind (within_onData fun d => ⟨List.prefix_rfl, List.prefix_rfl⟩) fun _ => ?_
  refine .bind (within_fetch remembers_framed) fun d => .ite (fun _ => ?_) fun _ => trivial
  refine .bind (within_onData fun d => ⟨List.prefix_rfl, List.prefix_append _ _⟩) fun _ => ?_
  exact within_wakeup remembers_framed () proc

theorem within_consoleChar (qemu : Bool) (c : UInt8) :
    (consoleChar proc qemu c : ConsoleCode ι Unit).Within Remembers fun _ => True := by
  refine .ite (fun _ => trivial) fun _ => .ite (fun _ => ?_) fun _ => .ite (fun _ => ?_) fun _ => ?_
  · exact within_onData fun d => grows_same (killLine_same _ d)
  · refine within_onData fun d => ?_
    unfold Console.backspace
    split_ifs
    · exact grows_same (erase_same d)
    · exact .refl d
  · refine .bind (within_fetch remembers_framed) fun d => .ite (fun _ => .ite (fun _ => .ite (fun _ => ?_) fun _ => ?_) fun _ => ?_) fun _ => ?_
    · exact within_storeChar proc newline
    · exact trivial
    · exact within_storeChar proc c
    · exact trivial

theorem within_consoleintr (qemu : Bool) (c : UInt8) :
    (consoleintr i proc qemu c : ConsoleCode ι Unit).Within Remembers fun _ => True := by
  refine .bind (within_acquire remembers_framed i) fun _ => ?_
  exact .bind (within_consoleChar proc qemu c) fun _ => within_release remembers_framed i

theorem within_waitInput (took n : Nat) : (waitInput i took n : ConsoleCode ι Bool).Within Remembers fun _ => True := by
  induction n with
  | zero => exact trivial
  | succ n ih =>
    refine .bind (within_fetch remembers_framed) fun d => .ite (fun _ => ?_) fun _ => trivial
    refine .bind (within_killed remembers_framed i) fun k => .ite (fun _ => ?_) fun _ => ?_
    · refine .bind (.change _ _ fun w => ⟨.refl w.data, fun _ => id⟩) fun _ => ?_
      exact .bind (within_release remembers_framed i) fun _ => trivial
    · exact .bind (within_sleep remembers_framed i ()) fun _ => ih

theorem within_consolereadLoop (ok : Nat → Bool) (target n : Nat) (x : Part) :
    (consolereadLoop i rounds ok target n x : ConsoleCode ι _).Within Remembers fun _ => True := by
  induction n generalizing x with
  | zero => exact trivial
  | succ n ih =>
    have htake : ∀ l, (update l (·.take i) : ConsoleCode ι Unit).Within Remembers fun _ => True :=
      fun l => within_onData fun d => grows_take d i
    refine .bind (within_waitInput i _ rounds) fun b => .ite (fun _ => ?_) fun _ => trivial
    refine .bind (within_fetch remembers_framed) fun d => .ite (fun _ => .ite (fun _ => ?_) fun _ => ?_) fun _ => ?_
    · exact .bind (within_onData grows_putBack) fun _ => trivial
    · exact .bind (htake _) fun _ => trivial
    · exact .bind (htake _) fun _ => .ite (fun _ => .ite (fun _ => trivial) fun _ => ih _) fun _ => trivial

theorem within_body (l : List ConsoleRead) (c : ConsoleCall) :
    (c.body proc rounds i l).Within Remembers fun _ => True := by
  cases c with
  | intr qemu c => exact .bind (within_consoleintr i proc qemu c) fun _ => trivial
  | read ok n =>
    refine .bind (.bind (within_acquire remembers_framed i) fun _ => ?_) fun _ => trivial
    refine .bind (within_consolereadLoop i rounds ok _ _ _) fun r => .ite (fun _ => ?_) fun _ => trivial
    exact .bind (within_release remembers_framed i) fun _ => trivial
  | kill pid => exact .bind (within_kill remembers_framed pid proc) fun _ => trivial

end Within

/-- Once committed, a byte keeps its place in the history. -/
theorem Reach.grows {proc : List ι} {rounds : Nat} {C : ConsoleLabel → World ι ConsoleChan (Console ι) → Prop}
    {g g' : Config ConsoleLabel Stop (World ι ConsoleChan (Console ι)) ι (List ConsoleRead)}
    (hg : ∀ i, (g.thread i).Within Remembers fun _ => True) (h : Reach (consoleClient proc rounds) C g g') :
    g.shared.data.Grows g'.shared.data :=
  (h.keep (fun i l c => within_body i proc rounds l c) (P := fun w => g.shared.data.Grows w.data)
    (fun _ _ _ hl hw => ⟨hw.1.trans hl.grows.1, hw.2.trans hl.grows.2⟩) hg (.refl _)).1

/-! ### Who gives up -/

/-- Only who has been killed is known to be. -/
def Dead (w : World ι ConsoleChan (Console ι)) (T : ι → Prop) : Prop := ∀ j, T j → (w.procs j).killed = true

section Gives
variable {C : ConsoleLabel → World ι ConsoleChan (Console ι) → Prop} {proc : List ι} {rounds : Nat} {i : ι} {t : Prop}

/-- What is known of a process is not forgotten by its code, and `Q` says what becomes known. -/
abbrev Gives (C : ConsoleLabel → World ι ConsoleChan (Console ι) → Prop) (i : ι) {α : Type} (p : ConsoleCode ι α) (t : Prop) (Q : α → Prop → Prop) : Prop :=
  Triple Dead C (fun _ _ => True) (fun _ => True) i p t Q

theorem gives_within {α : Type} {p : ConsoleCode ι α} (hp : p.Within Remembers fun _ => True) :
    Gives C i p t fun _ t' => t' = t :=
  .within (fun _ _ _ _ hl hI => ⟨trivial, fun j hj => hl.killed j (hI j hj)⟩) hp

/-- A flag that is read is known. -/
theorem gives_killed : Gives C i (killed i : ConsoleCode ι Bool) t fun k t' => (t → t') ∧ (k = true → t') := by
  intro w T w' hI hT _ hf
  cases hf
  refine ⟨trivial, t ∨ (w.procs i).killed = true, fun j hj => ?_, .inl, .inr⟩
  by_cases hji : j = i
  · rw [hji, Function.update_self] at hj
    rw [hji]
    exact hj.elim (fun ht => hI i (hT.symm ▸ ht)) id
  · rw [Function.update_of_ne hji] at hj
    exact hI j hj

theorem gives_waitInput (took n : Nat) : Gives C i (waitInput i took n) t fun b t' => (t → t') ∧ (b = false → t') := by
  induction n generalizing t with
  | zero => exact .stop trivial
  | succ n ih =>
    refine .bind (gives_within (within_fetch remembers_framed)) fun d t' ht => ?_
    rw [ht]
    by_cases hempty : d.r = d.w
    · rw [if_pos hempty]
      refine .bind gives_killed fun k t' hk => ?_
      obtain ⟨hkept, hkill⟩ := hk
      cases k with
      | true =>
        refine .bind (gives_within (.change _ _ fun w => ⟨.refl w.data, fun _ => id⟩)) fun _ t' ht' => ?_
        rw [ht']
        refine .bind (gives_within (within_release remembers_framed i)) fun _ t' ht' => .ret ?_
        rw [ht']
        exact ⟨hkept, fun _ => hkill rfl⟩
      | false =>
        refine .bind (gives_within (within_sleep remembers_framed i ())) fun _ t' ht' => ?_
        rw [ht']
        exact ih.mono fun b t'' hb => ⟨fun ht => hb.1 (hkept ht), hb.2⟩
    · rw [if_neg hempty]
      exact .ret ⟨id, fun hb => by cases hb⟩

theorem gives_consolereadLoop (ok : Nat → Bool) (target n : Nat) (x : Part) :
    Gives C i (consolereadLoop i rounds ok target n x) t fun r t' => (t → t') ∧ (r.1 = false → t') := by
  induction n generalizing t x with
  | zero => exact .ret ⟨id, fun hb => by cases hb⟩
  | succ n ih =>
    have htrue : ∀ {t₁ : Prop} {y : Part}, (t → t₁) → Gives C i (.ret (true, y) : ConsoleCode ι (Bool × Part)) t₁
        fun r t' => (t → t') ∧ (r.1 = false → t') := fun ht => .ret ⟨ht, fun hb => by cases hb⟩
    have hdata : ∀ (l : ConsoleLabel) (f : Console ι → Console ι) (t₁ : Prop), (∀ d : Console ι, d.Grows (f d)) →
        Gives C i (update l f) t₁ fun _ t' => t' = t₁ := fun l f t₁ hf => gives_within (within_onData hf)
    refine .bind (gives_waitInput _ rounds) fun b t' hb => ?_
    obtain ⟨hkept, hgave⟩ := hb
    cases b with
    | false => exact .ret ⟨hkept, fun _ => hgave rfl⟩
    | true =>
      refine .bind (gives_within (within_fetch remembers_framed)) fun d t₂ ht₂ => ?_
      subst ht₂
      by_cases hmark : d.next = ctrlD
      · rw [if_pos hmark]
        by_cases hlast : n + 1 < target
        · rw [if_pos hlast]
          refine .bind (hdata _ _ _ grows_putBack) fun _ t₃ ht₃ => ?_
          subst ht₃
          exact htrue hkept
        · rw [if_neg hlast]
          refine .bind (hdata _ _ _ fun d => grows_take d i) fun _ t₃ ht₃ => ?_
          subst ht₃
          exact htrue hkept
      · rw [if_neg hmark]
        refine .bind (hdata _ _ _ fun d => grows_take d i) fun _ t₃ ht₃ => ?_
        subst ht₃
        by_cases hok : ok x.got.length = true
        · rw [if_pos hok]
          by_cases hnl : d.next = newline
          · rw [if_pos hnl]
            exact htrue hkept
          · rw [if_neg hnl]
            exact (ih _).mono fun r t'' hr => ⟨fun ht => hr.1 (hkept ht), hr.2⟩
        · rw [if_neg hok]
          exact htrue hkept

theorem gives_consoleread (ok : Nat → Bool) (want : Int) :
    Gives C i (consoleread i rounds ok want) t fun x t' => (t → t') ∧ (x.ret = -1 → t') := by
  refine .bind (gives_within (within_acquire remembers_framed i)) fun _ t₁ ht₁ => ?_
  subst ht₁
  refine .bind (gives_consolereadLoop ok want.toNat want.toNat ⟨[], [], none⟩) fun r t₂ hr => ?_
  obtain ⟨b, x⟩ := r
  obtain ⟨hkept, hgave⟩ := hr
  cases b with
  | false => exact .ret ⟨hkept, fun _ => hgave rfl⟩
  | true =>
    refine .bind (gives_within (within_release remembers_framed i)) fun _ t₃ ht₃ => .ret ?_
    rw [ht₃]
    refine ⟨hkept, fun hret => ?_⟩
    have hcount : (x.got.length : Int) = -1 := hret
    omega

/-- Who has had a read give up has been killed. -/
theorem Reach.gives {procs : ι → Proc ι ConsoleChan} {buf : Nat → UInt8}
    {g : Config ConsoleLabel Stop (World ι ConsoleChan (Console ι)) ι (List ConsoleRead)}
    (hg : Reach (consoleClient proc rounds) C (consoleStarted procs buf) g) {l : List ConsoleRead} (hi : g.thread i = .ret l)
    {x : ConsoleRead} (hx : x ∈ l) (hret : x.ret = -1) : (g.shared.procs i).killed = true := by
  have hstart : Covered Dead C (fun _ _ => True) (fun _ => True)
      (fun (l : List ConsoleRead) t => ∀ x ∈ l, x.ret = -1 → t) (consoleStarted procs buf) :=
    ⟨fun _ => False, fun _ h => h.elim, fun _ => .ret fun x hx => by cases hx⟩
  have hcover := Reach.sound (M := consoleClient proc rounds) (fun j l c t _ ht => ?_) (fun _ _ _ _ _ _ _ _ _ _ _ _ h => h.elim) hstart hg
  · obtain ⟨T, hI, hT⟩ := hcover
    exact hI i (Covered.idle hT hi x hx hret)
  · cases c with
    | read ok n =>
      refine .bind (gives_consoleread ok n) fun y t' hy => .ret fun x hx hret => ?_
      rcases List.mem_append.mp hx with hx | hx
      · exact hy.1 (ht x hx hret)
      · rw [List.mem_singleton.mp hx] at hret
        exact hy.2 hret
    | intr qemu c =>
      refine .bind (gives_within (within_consoleintr j proc qemu c)) fun _ t' ht' => .ret ?_
      rw [ht']
      exact ht
    | kill pid =>
      refine .bind (gives_within (within_kill remembers_framed pid proc)) fun _ t' ht' => .ret ?_
      rw [ht']
      exact ht

end Gives

/-! ### The calls -/

/-- What an idle process owns. -/
def readsHold (l : List ConsoleRead) : ConsoleOwn :=
  ⟨l.flatMap (·.part.took), l.filterMap (·.part.mark), ∀ x ∈ l, x.Exact⟩

theorem readHold_begin (l : List ConsoleRead) : readHold l ⟨[], [], none⟩ = readsHold l := by
  unfold readHold readsHold
  rw [List.append_nil, Option.toList_none, List.append_nil]

theorem readHold_end (l : List ConsoleRead) {x : ConsoleRead} (hx : x.Exact) : readHold l x.part = readsHold (l ++ [x]) := by
  have hfine : (∀ y ∈ l, y.Exact) = ∀ y ∈ l ++ [x], y.Exact := by
    apply propext
    constructor
    · intro h y hy
      rcases List.mem_append.mp hy with hy | hy
      · exact h y hy
      · rw [List.mem_singleton.mp hy]
        exact hx
    · intro h y hy
      exact h y (List.mem_append_left _ hy)
  have hmark : [x].filterMap (·.part.mark) = x.part.mark.toList := by
    cases hm : x.part.mark with
    | none => simp [hm]
    | some k => simp [hm]
  unfold readHold readsHold
  rw [List.flatMap_append, List.filterMap_append, hmark, hfine]
  simp

section Keeps
variable {C : ConsoleLabel → World ι ConsoleChan (Console ι) → Prop} {proc : List ι} {rounds : Nat}

theorem console_keeps (hproc : ∀ j, j ∈ proc) (hC : ∀ l w, C l w → l.careful) :
    (monitor consoleWatch C).Keeps (consoleClient proc rounds) fun l => .out (readsHold l) where
  call i l c _ := by
    have hkept : ∀ {t : Duty ι ConsoleChan ConsoleOwn}, t = .out (readsHold l) →
        Runs consoleWatch C i (.ret l) t (fun _ => True) fun l' t' _ => t' = .out (readsHold l') :=
      fun ht => runs_ret fun _ _ => ht
    cases c with
    | intr qemu c =>
      exact runs_seq (fun _ => .out (readsHold l)) (F := fun _ _ => True) (runs_consoleintr hproc qemu c) fun _ => hkept rfl
    | read ok n =>
      have hread : Runs consoleWatch C i (consoleread i rounds ok n) (.out (readHold l ⟨[], [], none⟩)) (fun _ => True)
          fun x t' _ => t' = .out (readHold l x.part) ∧ x.Exact := runs_consoleread hC ok n l
      rw [readHold_begin] at hread
      show Runs consoleWatch C i (consoleread i rounds ok n >>= fun x => .ret (l ++ [x])) (.out (readsHold l)) (fun _ => True)
        fun l' t' _ => t' = .out (readsHold l')
      refine runs_seq (fun x : ConsoleRead => .out (readHold l x.part)) (F := fun (x : ConsoleRead) _ => x.Exact) hread fun x => ?_
      refine runs_ret fun _ hx => ?_
      rw [readHold_end l hx]
    | kill pid =>
      exact runs_seq (fun _ => .out (readsHold l)) (F := fun _ _ => True) (runs_kill (.inr fun _ => trivial) pid proc)
        fun _ => hkept rfl
  pass _ _ _ _ _ _ _ _ _ _ _ _ h := h.elim

/-- The invariant of every careful run. -/
theorem console_watched (hproc : ∀ j, j ∈ proc) (hC : ∀ l w, C l w → l.careful) {procs : ι → Proc ι ConsoleChan}
    (hprocs : ∀ j, (procs j).chan = none) {buf : Nat → UInt8}
    {g : Config ConsoleLabel Stop (World ι ConsoleChan (Console ι)) ι (List ConsoleRead)}
    (h : Reach (consoleClient proc rounds) C (consoleStarted procs buf) g) :
    ∃ T, Watched consoleWatch g.shared T ∧ ∀ i l, g.thread i = .ret l → T i = .out (readsHold l) := by
  have hstart : ConsoleKept (⟨buf, 0, 0, 0, [], []⟩ : Console ι) fun _ => readsHold [] := by
    refine ⟨⟨rfl, rfl, [], [], rfl, rfl, .nil _ _⟩, fun i => rfl, fun i k hk => (by cases hk), fun i x hx => by cases hx⟩
  exact (console_keeps hproc hC).sound (.start hprocs hstart) h

end Keeps

instance : DecidablePred ConsoleLabel.careful
  | .plain => inferInstanceAs (Decidable True)
  | .copy ok => inferInstanceAs (Decidable (ok = true))
  | .giveUp took => inferInstanceAs (Decidable (took = 0))

instance (proc : List ι) (rounds : Nat) (l : List ConsoleRead) (c : ConsoleCall) :
    Decidable ((consoleClient proc rounds).enabled l c) := inferInstanceAs (Decidable True)

instance (proc : List ι) (rounds : Nat) (l₁ l₂ l₁' l₂' : List ConsoleRead) :
    Decidable ((consoleClient proc rounds).pass l₁ l₂ l₁' l₂') := inferInstanceAs (Decidable False)

/-- A reader, and a process that is interrupted. -/
def readerAndTypist (j : Fin 2) : Proc (Fin 2) ConsoleChan := ⟨.running, none, false, j.val + 1, none⟩

/-- The reader sleeps until `a` and return have been typed. -/
def typed : List (Move (Fin 2) (List ConsoleRead) ConsoleCall) :=
  [.begin 0 (.read (fun _ => true) 3), .acts 0 7, .begin 1 (.intr true 97), .acts 1 5, .begin 1 (.intr true 13),
    .acts 1 8, .acts 0 11]

end Farron
