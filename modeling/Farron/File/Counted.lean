import Farron.File.Forks
import Mathlib.Data.Fintype.BigOperators

/-! The references of open files are counted right (`files_counted`). -/
namespace Farron.Files
open Resumption
variable {ι : Type} [Fintype ι] [DecidableEq ι]

/-! ### The calls -/

section Calls
variable {p : ι} {tb : Table}

theorem goes_argfd (fd : Int) : Goes p (argfd p fd) (has tb [] [] [] none) fun r t =>
    t = has tb [] [] [] none ∧ ∀ y, r = some y → tb y.1 = some y.2 := by
  unfold argfd
  by_cases h : 0 ≤ fd ∧ fd < nofile
  · rw [dif_pos h]
    refine goes_look fun s own hK hp => Triple.ret ⟨rfl, fun y hy => ?_⟩
    rw [hK.ofile_eq (show (own p).table = some tb by rw [hp])] at hy
    obtain ⟨f, hf, rfl⟩ := Option.map_eq_some_iff.mp hy
    exact hf
  · rw [dif_neg h]
    exact Triple.ret ⟨rfl, fun _ hy => nomatch hy⟩

/-- The descriptor is there before its reference. -/
theorem goes_sysDup (fd : Int) {x : Hold ι} (hx : Rest x) : Goes p (sysDup p fd) x fun _ => Rest := by
  refine goes_enter hx fun tb => Triple.bind (goes_argfd fd) fun r t ht => ?_
  obtain ⟨ht, hr⟩ := ht
  rw [ht]
  cases r with
  | none => exact Triple.ret ⟨_, rfl⟩
  | some y =>
    obtain ⟨fd₀, f⟩ := y
    have hfd : tb fd₀ = some f := hr _ rfl
    refine Triple.bind goes_fdallocDup fun r t ht => ?_
    cases r with
    | none => exact Triple.ret ⟨_, ht⟩
    | some fd₁ =>
      obtain ⟨hnone, ht⟩ := ht
      rw [ht]
      have hcount := tb.count_store hnone f
      have hpos := Table.count_pos hfd
      refine (goes_filedup [] [] ?_ (fun g => ?_) (fun g => ?_)).mono fun _ t ht => ⟨_, ht⟩
      · rw [hcount, if_pos rfl, List.count_singleton_self]
        omega
      · rw [count_cons_if]
        simp
      · simp

theorem goes_sysClose (fd : Int) {x : Hold ι} (hx : Rest x) : Goes p (sysClose p fd) x fun _ => Rest := by
  refine goes_enter hx fun tb => Triple.bind (goes_argfd fd) fun r t ht => ?_
  obtain ⟨ht, hr⟩ := ht
  rw [ht]
  cases r with
  | none => exact Triple.ret ⟨_, rfl⟩
  | some y =>
    obtain ⟨fd₀, f⟩ := y
    refine goes_seq (goes_setFd_none (hr _ rfl)) fun _ => ?_
    exact (goes_giveUp [] (List.Perm.refl _) (fun g hg => hg) (fun g hg => nomatch hg)).mono
      fun _ t ht => ⟨_, ht⟩

/-- A file is taken, a descriptor given to it, and the file filled in. -/
theorem goes_openFile {x : File → File} (hx : ∀ y, (x y).ref = y.ref ∧ (x y).type ≠ .pipe) :
    Goes p (do
      match ← filealloc with
      | none => return
      | some f => match ← fdalloc p f with
        | none => fileclose f
        | some _ => fill f x) (has tb [] [] [] none) fun _ => Rest := by
  refine Triple.bind goes_filealloc fun r t ht => ?_
  cases r with
  | none => exact Triple.ret ⟨_, ht⟩
  | some f =>
    rw [ht.2]
    refine Triple.bind (goes_fdalloc (l := []) (List.Perm.refl _) fun g hg => .inl (List.mem_singleton.mp hg))
      fun r t ht => ?_
    cases r with
    | none =>
      rw [ht]
      exact (goes_giveUp [] (List.Perm.refl _) (fun g hg => nomatch hg) (fun g hg => nomatch hg)).mono
        fun _ t ht => ⟨_, ht⟩
    | some fd =>
      rw [ht.2]
      exact (goes_fill hx).mono fun _ t ht => ⟨_, ht⟩

theorem goes_sysOpen (omode : Nat) (found : Option Found) {x : Hold ι} (hx : Rest x) :
    Goes p (sysOpen p omode found) x fun _ => Rest := by
  refine goes_enter hx fun tb => ?_
  cases found with
  | none => exact Triple.ret ⟨_, rfl⟩
  | some y =>
    by_cases hdir : omode &&& oCreate = 0 ∧ y.directory ∧ omode ≠ 0
    · simp only [if_pos hdir]
      exact Triple.ret ⟨_, rfl⟩
    · simp only [if_neg hdir]
      exact goes_openFile fun _ => ⟨rfl, fun h => by cases h⟩

theorem goes_sysDev (omode : Nat) (major : Int) {x : Hold ι} (hx : Rest x) :
    Goes p (sysDev p omode major) x fun _ => Rest := by
  refine goes_enter hx fun tb => ?_
  by_cases hcreate : omode &&& oCreate ≠ 0
  · rw [if_pos hcreate]
    exact Triple.stop (Allowed.panic (by decide) (by decide))
  · rw [if_neg hcreate]
    by_cases hmajor : major < 0 ∨ ndev ≤ major
    · rw [if_pos hmajor]
      exact Triple.ret ⟨_, rfl⟩
    · rw [if_neg hmajor]
      exact goes_openFile fun _ => ⟨rfl, fun h => nomatch h⟩

theorem goes_pipealloc (pick : Option Page) : Goes p (pipealloc pick : Code ι _) (has tb [] [] [] none) fun r t =>
    match r with
    | none => t = has tb [] [] [] none
    | some (rf, wf) => t = has tb [wf, rf] [] [] none := by
  refine Triple.bind goes_filealloc fun r t ht => ?_
  cases r with
  | none => exact Triple.ret ht
  | some f₀ =>
    rw [ht.2]
    refine Triple.bind goes_filealloc fun r t ht => ?_
    cases r with
    | none =>
      rw [ht]
      exact goes_seq (goes_giveUp [] (List.Perm.refl _) (fun g hg => nomatch hg) (fun g hg => nomatch hg))
        fun _ => Triple.ret rfl
    | some f₁ =>
      obtain ⟨hne, ht⟩ := ht
      rw [ht]
      have hboth : Goes p (closeBoth f₀ f₁ >>= fun _ => .ret none : Code ι (Option (FileNo × FileNo)))
          (has tb [f₁, f₀] [] [f₁, f₀] none) fun r t =>
            match r with
            | none => t = has tb [] [] [] none
            | some (rf, wf) => t = has tb [wf, rf] [] [] none :=
        goes_seq (goes_closeBoth (List.Perm.swap ..) (.inr List.mem_cons_self)) fun _ => Triple.ret rfl
      cases pick with
      | none => exact hboth
      | some pg =>
        refine goes_act fun s own hK hp => ?_
        by_cases hfree : s.use pg = .free
        · simp only [if_pos hfree]
          have h₀ : f₀ ∈ (own p).new := by
            rw [hp]
            exact List.mem_cons_of_mem _ List.mem_cons_self
          have h₁ : f₁ ∈ (own p).new := by
            rw [hp]
            exact List.mem_cons_self
          have hne' : f₀ ≠ f₁ := fun he => hne (List.mem_singleton.mpr he.symm)
          have := hK.init (has_table hp rfl) hfree hne' h₀ h₁
          rw [hp] at this
          exact ⟨_, this, Triple.ret rfl⟩
        · simp only [if_neg hfree]
          refine ⟨has tb [f₁, f₀] [] [f₁, f₀] none, ?_, hboth⟩
          rw [World.pipeinit, if_neg hfree, update_same hp]
          exact hK

theorem goes_sysPipe (pick : Option Page) (copied : Bool) {x : Hold ι} (hx : Rest x) :
    Goes p (sysPipe p pick copied) x fun _ => Rest := by
  refine goes_enter hx fun tb => Triple.bind (goes_pipealloc pick) fun r t ht => ?_
  cases r with
  | none => exact Triple.ret ⟨_, ht⟩
  | some y =>
    obtain ⟨rf, wf⟩ := y
    rw [ht]
    refine Triple.bind (goes_fdalloc (f := rf) (l := [wf]) (List.Perm.swap ..) fun g hg => nomatch hg) fun r t ht => ?_
    cases r with
    | none =>
      rw [ht]
      exact (goes_closeBoth (List.Perm.swap ..) (.inl rfl)).mono fun _ t ht => ⟨_, ht⟩
    | some fd₀ =>
      rw [ht.2]
      have hfd₀ : Function.update tb fd₀ (some rf) fd₀ = some rf := Function.update_self ..
      refine Triple.bind (goes_fdalloc (f := wf) (l := []) (List.Perm.refl _) fun g hg => nomatch hg) fun r t ht => ?_
      cases r with
      | none =>
        rw [ht]
        refine goes_seq (goes_setFd_none hfd₀) fun _ => ?_
        exact (goes_closeBoth (List.Perm.refl _) (.inl rfl)).mono fun _ t ht => ⟨_, ht⟩
      | some fd₁ =>
        obtain ⟨hnone, ht⟩ := ht
        rw [ht]
        cases copied with
        | true => exact Triple.ret ⟨_, rfl⟩
        | false =>
          have hne : fd₁ ≠ fd₀ := by
            intro he
            rw [he, hfd₀] at hnone
            cases hnone
          refine goes_seq (goes_setFd_none (f := rf) ?_) fun _ => goes_seq (goes_setFd_none (f := wf) ?_) fun _ => ?_
          · rw [Function.update_of_ne hne.symm, hfd₀]
          · rw [Function.update_of_ne hne, Function.update_self]
          · exact (goes_closeBoth (List.Perm.swap ..) (.inl rfl)).mono fun _ t ht => ⟨_, ht⟩

theorem goes_page (pg : Page) {x : Hold ι} (hx : Rest x) : Goes p (page p pg) x fun _ => Rest := by
  refine goes_enter hx fun tb => goes_act fun s own hK hp => ⟨has tb [] [] [] none, ?_, Triple.ret ⟨_, rfl⟩⟩
  rw [update_same hp]
  have huse : ∀ u, u ≠ .pipe → s.use pg ≠ .pipe → Kept (s.setUse pg u) own := by
    intro u hu hpg
    refine hK.page fun pg' => ?_
    by_cases he : pg' = pg
    · rw [he, Function.update_self]
      exact ⟨fun h => absurd h hu, fun h => absurd h hpg⟩
    · rw [Function.update_of_ne he]
  cases hpg : s.use pg with
  | free => exact huse .other (by decide) (by rw [hpg]; decide)
  | other => exact huse .free (by decide) (by rw [hpg]; decide)
  | pipe => exact hK

theorem goes_call (proc : List ι) (initproc : ι) (c : Call ι) {x : Hold ι} (hx : Rest x) :
    Goes p (c.body p proc initproc) x fun _ => Rest := by
  cases c with
  | dup fd => exact goes_sysDup fd hx
  | close fd => exact goes_sysClose fd hx
  | «open» omode found => exact goes_sysOpen omode found hx
  | dev omode major => exact goes_sysDev omode major hx
  | pipe pick copied => exact goes_sysPipe pick copied hx
  | fork enough => exact goes_fork proc enough hx
  | exit => exact goes_exit initproc hx
  | wait j => exact goes_wait j hx
  | page pg => exact goes_page pg hx

end Calls

/-! ### Between calls -/

/-- How many descriptors of all processes show the file. -/
def World.slots (s : World ι) (f : FileNo) : Nat := (Finset.univ.filter fun x : ι × Fd => s.ofile x.1 x.2 = some f).card

omit [DecidableEq ι] in
theorem World.slots_eq (s : World ι) (f : FileNo) : s.slots f = ∑ i, (s.ofile i).count f := by
  rw [slots, Finset.card_filter, Fintype.sum_prod_type]
  rfl

/-- A file in use that is an end of the pipe in a page. -/
def World.End (s : World ι) (pg : Page) (w : Bool) (f : FileNo) : Prop :=
  0 < (s.ftable f).ref ∧ (s.ftable f).type = .pipe ∧ (s.ftable f).pipe = some pg ∧ (s.ftable f).writable = w

/-- Files and pipes are as the descriptors show them. -/
structure Counted (s : World ι) : Prop where
  refs : ∀ f, (s.ftable f).ref = s.slots f
  unused : ∀ f, (s.ftable f).ref = 0 → ∀ i fd, s.ofile i fd ≠ some f
  pages : ∀ pg, s.use pg = .pipe ↔ ∃ w f, s.End pg w f
  ends : ∀ pg w, s.use pg = .pipe → ((s.ends pg).isOpen w = true ↔ ∃ f, s.End pg w f)
  one : ∀ pg w f f', s.End pg w f → s.End pg w f' → f = f'

omit [DecidableEq ι] in
theorem Kept.counted {s : World ι} {own : ι → Hold ι} (h : Kept s own) (hrest : ∀ i, Rest (own i)) : Counted s := by
  have hextra : ∀ i, (own i).extra = [] := fun i => by
    obtain ⟨tb, hi⟩ := hrest i
    rw [hi]
  have howed : ∀ i, (own i).owed = [] := fun i => by
    obtain ⟨tb, hi⟩ := hrest i
    rw [hi]
  have hclosing : ∀ i, (own i).closing = none := fun i => by
    obtain ⟨tb, hi⟩ := hrest i
    rw [hi]
  have hrefs : ∀ f, (s.ftable f).ref = ∑ i, (s.ofile i).count f := by
    intro f
    have := h.refs.refs f
    simpa only [hextra, howed, List.count_nil, Finset.sum_const_zero, Nat.add_zero] using this
  have hlive : ∀ f, (s.ftable f).type = .pipe → 0 < (s.ftable f).ref := by
    intro f hf
    by_contra hz
    have := h.pipes.closed f (Nat.eq_zero_of_not_pos hz)
    rw [hf] at this
    cases this
  have hopen : ∀ pg w, s.use pg = .pipe → (s.ends pg).isOpen w = true → ∃ f, s.End pg w f := by
    intro pg w hu ho
    obtain ⟨f, hf⟩ | ⟨i, hi⟩ := h.pipes.isOpen pg w hu ho
    · exact ⟨f, hlive f hf.1, hf⟩
    · rw [hclosing] at hi
      cases hi
  have hend : ∀ pg w f, s.End pg w f → s.use pg = .pipe ∧ (s.ends pg).isOpen w = true := by
    intro pg w f hf
    obtain ⟨-, ht, hp, hw⟩ := hf
    obtain ⟨pg', hp', hu, ho⟩ := h.pipes.pipe f ht
    rw [hp] at hp'
    cases hp'
    rw [hw] at ho
    exact ⟨hu, ho⟩
  refine ⟨fun f => by rw [s.slots_eq, hrefs], fun f hz i fd hfd => ?_, fun pg => ⟨fun hu => ?_, fun hf => ?_⟩,
    fun pg w hu => ⟨hopen pg w hu, fun hf => ?_⟩, fun pg w f f' hf hf' => ?_⟩
  · have hpos := Table.count_pos hfd
    have hle := Finset.single_le_sum (f := fun i => (s.ofile i).count f) (fun _ _ => Nat.zero_le _) (Finset.mem_univ i)
    have := hrefs f
    omega
  · by_cases hread : (s.ends pg).isOpen false = true
    · exact ⟨false, hopen pg false hu hread⟩
    · by_cases hwrite : (s.ends pg).isOpen true = true
      · exact ⟨true, hopen pg true hu hwrite⟩
      · obtain ⟨i, hi⟩ := h.pipes.shut pg hu (Bool.eq_false_iff.mpr hread) (Bool.eq_false_iff.mpr hwrite)
        rw [hclosing] at hi
        cases hi
  · obtain ⟨w, f, hf⟩ := hf
    exact (hend pg w f hf).1
  · obtain ⟨f, hf⟩ := hf
    exact (hend pg w f hf).2
  · exact h.pipes.ends f f' hf.2.1 hf'.2.1 (hf.2.2.1.trans hf'.2.2.1.symm) (hf.2.2.2.trans hf'.2.2.2.symm)

theorem kept_start (initproc : ι) (use : Page → Bool) (ends : Page → Ends) :
    Kept (start initproc use ends).shared fun _ => Hold.idle := by
  have huse : ∀ pg, (start initproc use ends).shared.use pg ≠ .pipe := by
    intro pg
    show (if use pg then Use.other else Use.free) ≠ .pipe
    cases use pg <;> decide
  refine ⟨⟨fun f => ?_, fun i f => Nat.zero_le _, fun i f hf => (nomatch hf)⟩,
    ⟨fun f _ => rfl, fun i f hf => (nomatch hf), fun i j f hf => (nomatch hf), fun f hf => (nomatch hf), fun f f' hf => (nomatch hf),
      fun pg w hu => absurd hu (huse pg), fun pg hu => absurd hu (huse pg), fun i pg w hi => (nomatch hi),
      fun i pg hi => (nomatch hi), fun i j y hi => (nomatch hi)⟩,
    ⟨fun i tb ht => (nomatch ht), fun i _ => rfl, fun i j l hl => (nomatch hl), fun i j hl => (nomatch hl), fun j _ _ fd => rfl⟩⟩
  show 0 + ∑ _i : ι, List.count f [] = ∑ _i : ι, Table.count (fun _ => none) f + ∑ _i : ι, List.count f []
  simp only [Table.count_empty, List.count_nil, Finset.sum_const_zero]

/-- The books of any run: what each process holds, in the middle of a call or not. -/
theorem files_kept (proc : List ι) (initproc : ι) (use : Page → Bool) (ends : Page → Ends) {g : Config Unit Stop (World ι) ι Unit}
    (hg : Reach (client proc initproc) (fun _ _ => True) (start initproc use ends) g) :
    Covered Kept (fun _ _ => True) (fun _ _ => True) Allowed (fun _ => Rest) g := by
  have h₀ : Covered Kept (fun _ _ => True) (fun _ _ => True) Allowed (fun _ => Rest) (start initproc use ends) :=
    ⟨fun _ => .idle, kept_start initproc use ends, fun p => Triple.ret ⟨none, rfl⟩⟩
  exact Reach.sound (fun p _ c x _ hx => goes_call proc initproc c hx) (fun _ _ _ _ _ _ _ _ _ _ _ _ hp => False.elim hp) h₀ hg

/-- **Open files.** Between calls each file has as many references as descriptors show it,
and a pipe is there as long as an end of it is in use; `filedup` and `fileclose` do not
panic. -/
theorem files_counted (proc : List ι) (initproc : ι) (use : Page → Bool) (ends : Page → Ends)
    {g : Config Unit Stop (World ι) ι Unit}
    (hg : Reach (client proc initproc) (fun _ _ => True) (start initproc use ends) g) :
    ((∀ p, g.thread p = .ret ()) → Counted g.shared) ∧ ∀ p e, g.thread p = .stop e → Allowed e := by
  obtain ⟨own, hK, hown⟩ := files_kept proc initproc use ends hg
  refine ⟨fun hidle => hK.counted fun i => Covered.idle hown (hidle i), fun p e he => ?_⟩
  have := hown p
  rw [he] at this
  exact this

instance (proc : List ι) (initproc : ι) (l : Unit) (c : Call ι) : Decidable ((client proc initproc).enabled l c) :=
  isTrue trivial

instance (proc : List ι) (initproc : ι) (l l' m m' : Unit) : Decidable ((client proc initproc).pass l l' m m') := isFalse id

/-- A pipe is made and shared with a child, which closes the end it does not need while its
parent makes another reference. -/
theorem files_counted_shared : ∃ g, Reach (client [0, 1] (0 : Fin 2)) (fun _ _ => True)
      (start 0 (fun _ => false) fun _ => ⟨false, false⟩) g ∧
    Counted g.shared ∧ (g.shared.ftable ⟨0, by decide⟩).ref = 3 ∧ (g.shared.ftable ⟨1, by decide⟩).ref = 1 ∧ g.shared.use 5 = .pipe := by
  obtain ⟨g, hg, hidle, hrest⟩ : ∃ g, Reach (client [0, 1] (0 : Fin 2)) (fun _ _ => True)
      (start 0 (fun _ => false) fun _ => ⟨false, false⟩) g ∧ (∀ p, (g.thread p).returned = true) ∧
      (g.shared.ftable ⟨0, by decide⟩).ref = 3 ∧ (g.shared.ftable ⟨1, by decide⟩).ref = 1 ∧ g.shared.use 5 = .pipe :=
    Reach.of_play [.begin 0 (.pipe (some 5) true), .acts 0 6, .begin 0 (.fork true), .acts 0 24, .begin 1 (.close 1),
      .acts 1 3, .begin 0 (.dup 0), .acts 0 3, .acts 1 1, .acts 0 1] (by decide +kernel)
  exact ⟨g, hg, (files_counted _ _ _ _ hg).1 fun p => Prog.returned_unit (hidle p), hrest⟩

end Farron.Files
