import Farron.File.Counts

/-! The references of open files are counted right.

Each function is followed section by section: what it owes when it returns is said in its
lemma. Processes that are between calls owe nothing, so that with no call in progress the
count of each file is the number of its descriptors, and a pipe is there exactly as
long as one of its files is open (`files_counted`). -/
namespace Farron.Files
open Resumption
variable {ι : Type} [Fintype ι] [DecidableEq ι]

/-- What a thread may stop for: no panic of `filedup` or `fileclose`, and no fault. -/
def Allowed (e : Stop) : Prop := e ≠ .panic "filedup" ∧ e ≠ .panic "fileclose" ∧ ∀ m, e ≠ .fault m

theorem Allowed.panic {m : String} (hdup : m ≠ "filedup") (hclose : m ≠ "fileclose") : Allowed (.panic m) :=
  ⟨fun h => hdup (Stop.panic.inj h), fun h => hclose (Stop.panic.inj h), fun _ h => nomatch h⟩

/-- The program takes process `p` from what it has to one of these, as it should. -/
abbrev Goes {α : Type} (p : ι) (c : Code ι α) (x : Hold ι) (Q : α → Hold ι → Prop) : Prop :=
  Triple Kept (fun _ _ => True) (fun _ _ => True) Allowed p c x Q

section Functions
variable {p : ι}

omit [Fintype ι] in
theorem update_same {own : ι → Hold ι} {x : Hold ι} (hp : own p = x) : Function.update own p x = own := by
  rw [← hp, Function.update_eq_self]

/-- A section that cannot be blocked. -/
theorem goes_act {α : Type} {f : World ι → World ι} {k : World ι → Code ι α} {x : Hold ι} {Q : α → Hold ι → Prop}
    (h : ∀ s own, Kept s own → own p = x → ∃ x', Kept (f s) (Function.update own p x') ∧ Goes p (k s) x' Q) :
    Goes p (.act () (fun s => some (f s)) k) x Q := by
  intro s own s' hK hp _ hf
  cases hf
  obtain ⟨x', hK', hk⟩ := h s own hK hp
  exact ⟨trivial, x', hK', hk⟩

theorem goes_look {α : Type} {k : World ι → Code ι α} {x : Hold ι} {Q : α → Hold ι → Prop}
    (h : ∀ s own, Kept s own → own p = x → Goes p (k s) x Q) : Goes p (.act () some k) x Q :=
  goes_act (f := id) fun s own hK hp => ⟨x, by rw [update_same hp]; exact hK, h s own hK hp⟩

/-- Sequencing after a program that returns with a known token. -/
theorem goes_seq {α β : Type} {c : Code ι α} {q : α → Code ι β} {x y : Hold ι} {Q : β → Hold ι → Prop}
    (hc : Goes p c x fun _ t => t = y) (hq : ∀ a, Goes p (q a) y Q) : Goes p (c >>= q) x Q := by
  refine Triple.bind hc fun a t ht => ?_
  rw [ht]
  exact hq a

variable {tb : Table} {owed extra new : List FileNo} {child : Option (ι × List Fd)}

/-- In a call. -/
abbrev has (tb : Table) (owed extra new : List FileNo) (child : Option (ι × List Fd)) : Hold ι :=
  ⟨some tb, owed, extra, new, none, child⟩

omit [Fintype ι] [DecidableEq ι] in
theorem has_table {own : ι → Hold ι} {x : Hold ι} (hp : own p = x) (hx : x.table.isSome) : (own p).table ≠ none := by
  rw [hp]
  exact Option.isSome_iff_ne_none.mp hx

theorem goes_kfree {pg : Page} :
    Goes p (kfree pg) ⟨some tb, owed, extra, new, some (pg, none), child⟩ fun _ t => t = has tb owed extra new child := by
  refine goes_act fun s own hK hp => ⟨has tb owed extra new child, ?_, ?_⟩
  · have := hK.free (has_table hp rfl) (show (own p).closing = some (pg, none) by rw [hp])
    rwa [hp] at this
  · have huse := (hK.pipes.freeing p pg (by rw [hp])).1
    rw [if_pos huse]
    exact Triple.ret rfl

theorem goes_pipeclose {pg : Page} {w : Bool} :
    Goes p (pipeclose pg w) ⟨some tb, owed, extra, new, some (pg, some w), child⟩
      fun _ t => t = has tb owed extra new child := by
  refine goes_act fun s own hK hp => ⟨_, hK.shutEnd (has_table hp rfl)
    (show (own p).closing = some (pg, some w) by rw [hp]), ?_⟩
  have hboth : (((s.ends pg).shut w).readopen = false ∧ ((s.ends pg).shut w).writeopen = false) ↔
      (s.ends pg).isOpen (!w) = false := by
    cases w
    · exact ⟨fun h => h.2, fun h => ⟨rfl, h⟩⟩
    · exact ⟨fun h => h.1, fun h => ⟨h, rfl⟩⟩
  simp only [hboth, hp]
  cases ho : (s.ends pg).isOpen (!w) with
  | true => exact Triple.ret rfl
  | false => exact goes_kfree

/-- A reference is given up: one that was owed, or that of a descriptor. -/
theorem goes_fileclose {f : FileNo} {owed' extra' new' : List FileNo}
    (hpos : extra.count f < tb.count f + owed.count f)
    (hbal : ∀ g, owed'.count g + extra.count g + (if g = f then 1 else 0) = owed.count g + extra'.count g)
    (hslots : ∀ g, extra'.count g ≤ tb.count g) (hsub : ∀ g, g ∈ new' → g ∈ new)
    (hnew : ∀ g, g ∈ new' → extra'.count g < tb.count g + owed'.count g) :
    Goes p (fileclose f) (has tb owed extra new child) fun _ t => t = has tb owed' extra' new' child := by
  refine goes_act fun s own hK hp => ⟨⟨some tb, owed', extra', new', World.last s f, child⟩, ?_, ?_⟩
  · have htb : s.ofile p = tb := hK.ofile_eq (by rw [hp])
    have hlive : 0 < (s.ftable f).ref := hK.refs.pos (p := p) (by rw [hp, htb]; exact hpos)
    have := hK.drop (has_table hp rfl) owed' extra' new' hlive (by rw [hp]; exact hbal)
      (by rw [htb]; exact hslots) (by rw [hp]; exact hsub) (by rw [htb]; exact hnew) (by rw [hp])
    rwa [hp] at this
  · have htb : s.ofile p = tb := hK.ofile_eq (by rw [hp])
    have hlive : 0 < (s.ftable f).ref := hK.refs.pos (p := p) (by rw [hp, htb]; exact hpos)
    rw [if_neg (by omega)]
    by_cases hlast : (s.ftable f).ref - 1 > 0
    · rw [if_pos hlast, World.last, if_pos hlast]
      exact Triple.ret rfl
    · rw [if_neg hlast, World.last, if_neg hlast, closeLast]
      by_cases ht : (s.ftable f).type = .pipe
      · obtain ⟨pg, hpg, -⟩ := hK.pipes.pipe f ht
        rw [if_pos ht, if_pos ht, hpg]
        exact goes_pipeclose
      · rw [if_neg ht, if_neg ht]
        exact Triple.ret rfl

omit [Fintype ι] [DecidableEq ι] in
theorem count_cons_if (f g : FileNo) (l : List FileNo) : (f :: l).count g = l.count g + if g = f then 1 else 0 := by
  rw [List.count_cons]
  by_cases hg : g = f
  · simp [hg]
  · simp [hg, Ne.symm hg]

/-- A reference that was owed is given up. -/
theorem goes_giveUp {f : FileNo} {l : List FileNo} (new' : List FileNo) (hperm : owed.Perm (f :: l)) (hsub : ∀ g, g ∈ new' → g ∈ new)
    (hnew : ∀ g, g ∈ new' → g ∈ l) :
    Goes p (fileclose f) (has tb owed [] new child) fun _ t => t = has tb l [] new' child := by
  refine goes_fileclose ?_ (fun g => ?_) (fun g => ?_) hsub (fun g hg => ?_)
  · rw [hperm.count_eq, List.count_cons_self]
    simp
  · rw [hperm.count_eq, count_cons_if, List.count_nil]
    omega
  · simp
  · have := List.count_pos_iff.mpr (hnew g hg)
    simp only [List.count_nil]
    omega

theorem goes_closeBoth {f₀ f₁ : FileNo} (hperm : owed.Perm [f₀, f₁]) (hnew : new = [] ∨ f₁ ∈ new) :
    Goes p (closeBoth f₀ f₁) (has tb owed [] new child) fun _ t => t = has tb [] [] [] child := by
  rcases hnew with rfl | hnew
  · exact goes_seq (goes_giveUp [] hperm (by simp) (by simp)) fun _ =>
      goes_giveUp [] (List.Perm.refl _) (by simp) (by simp)
  · exact goes_seq (goes_giveUp [f₁] hperm (by simpa using hnew) (by simp)) fun _ =>
      goes_giveUp [] (List.Perm.refl _) (by simp) (by simp)

theorem goes_filealloc : Goes p (filealloc : Code ι _) (has tb owed [] new child) fun r t =>
    match r with
    | none => t = has tb owed [] new child
    | some f => f ∉ new ∧ t = has tb (f :: owed) [] (f :: new) child := by
  refine goes_act fun s own hK hp => ?_
  cases hf : s.freeFile with
  | none =>
    refine ⟨has tb owed [] new child, ?_, Triple.ret rfl⟩
    rw [World.filealloc, hf, update_same hp]
    exact hK
  | some f =>
    have hzero : (s.ftable f).ref = 0 := by simpa using List.find?_some hf
    have hnew := hK.unused hzero p
    rw [hp] at hnew
    refine ⟨has tb (f :: owed) [] (f :: new) child, ?_, Triple.ret ⟨hnew, rfl⟩⟩
    have := hK.filealloc (has_table hp rfl) hf
    rwa [hp] at this

omit [Fintype ι] [DecidableEq ι] in
/-- Where `fdalloc` puts a file. -/
theorem freeFd_none {s : World ι} {fd : Fd} (h : s.freeFd p = some fd) : s.ofile p fd = none := by
  simpa using List.find?_some h

/-- A descriptor takes over a reference that was owed. -/
theorem goes_fdalloc {f : FileNo} {l : List FileNo} (hperm : owed.Perm (f :: l)) (hnew : ∀ g, g ∈ new → g = f ∨ g ∈ l) :
    Goes p (fdalloc p f) (has tb owed [] new child) fun r t =>
      match r with
      | none => t = has tb owed [] new child
      | some fd => tb fd = none ∧ t = has (Function.update tb fd (some f)) l [] new child := by
  refine goes_act fun s own hK hp => ?_
  cases hf : s.freeFd p with
  | none =>
    refine ⟨has tb owed [] new child, ?_, Triple.ret rfl⟩
    rw [World.fdalloc, hf, update_same hp]
    exact hK
  | some fd =>
    have htb : s.ofile p = tb := hK.ofile_eq (by rw [hp])
    have hnone : tb fd = none := by
      rw [← htb]
      exact freeFd_none hf
    refine ⟨has (Function.update tb fd (some f)) l [] new child, ?_, Triple.ret ⟨hnone, rfl⟩⟩
    have hcount := tb.count_store hnone f
    have := hK.setFd (by rw [hp]) fd (some f) l [] (fun g => ?_) (fun g => ?_) (fun g hg => ?_)
    · rw [hp] at this
      rw [World.fdalloc, hf]
      exact this
    · rw [hp, hcount, hperm.count_eq, count_cons_if]
      simp only [List.count_nil]
      omega
    · simp
    · rw [hp] at hg
      rw [hcount]
      rcases hnew g hg with rfl | hl
      · simp
      · have := List.count_pos_iff.mpr hl
        simp only [List.count_nil]
        omega

/-- A descriptor of a file that the process has open already: its reference is still to
be made. -/
theorem goes_fdallocDup {f : FileNo} :
    Goes p (fdalloc p f) (has tb [] [] [] child) fun r t =>
      match r with
      | none => t = has tb [] [] [] child
      | some fd => tb fd = none ∧ t = has (Function.update tb fd (some f)) [] [f] [] child := by
  refine goes_act fun s own hK hp => ?_
  cases hf : s.freeFd p with
  | none =>
    refine ⟨has tb [] [] [] child, ?_, Triple.ret rfl⟩
    rw [World.fdalloc, hf, update_same hp]
    exact hK
  | some fd =>
    have htb : s.ofile p = tb := hK.ofile_eq (by rw [hp])
    have hnone : tb fd = none := by
      rw [← htb]
      exact freeFd_none hf
    refine ⟨has (Function.update tb fd (some f)) [] [f] [] child, ?_, Triple.ret ⟨hnone, rfl⟩⟩
    have hcount := tb.count_store hnone f
    have := hK.setFd (by rw [hp]) fd (some f) [] [f] (fun g => ?_) (fun g => ?_) (fun g hg => ?_)
    · rw [hp] at this
      rw [World.fdalloc, hf]
      exact this
    · rw [hp, hcount, count_cons_if]
      simp only [List.count_nil]
      omega
    · rw [hcount, count_cons_if]
      simp only [List.count_nil]
      omega
    · rw [hp] at hg
      cases hg

/-- A descriptor is emptied, its reference still owed. -/
theorem goes_setFd_none {f : FileNo} {fd : Fd} (hfd : tb fd = some f) :
    Goes p (setFd p fd none) (has tb owed [] [] child)
      fun _ t => t = has (Function.update tb fd none) (f :: owed) [] [] child := by
  refine goes_act fun s own hK hp => ⟨has (Function.update tb fd none) (f :: owed) [] [] child, ?_, Triple.ret rfl⟩
  have hcount := tb.count_clear hfd
  have := hK.setFd (by rw [hp]) fd none (f :: owed) [] (fun g => ?_) (fun g => ?_)
    (fun g hg => ?_)
  · rw [hp] at this
    exact this
  · have := hcount g
    rw [hp, count_cons_if]
    simp only [List.count_nil]
    omega
  · simp
  · rw [hp] at hg
    cases hg

/-- A descriptor whose reference is gone is emptied. -/
theorem goes_setFd_gone {f : FileNo} {fd : Fd} (hfd : tb fd = some f) :
    Goes p (setFd p fd none) (has tb [] [f] [] child) fun _ t => t = has (Function.update tb fd none) [] [] [] child := by
  refine goes_act fun s own hK hp => ⟨has (Function.update tb fd none) [] [] [] child, ?_, Triple.ret rfl⟩
  have hcount := tb.count_clear hfd
  have := hK.setFd (by rw [hp]) fd none [] [] (fun g => ?_) (fun g => ?_)
    (fun g hg => ?_)
  · rw [hp] at this
    exact this
  · have := hcount g
    rw [hp, count_cons_if]
    simp only [List.count_nil]
    omega
  · simp
  · rw [hp] at hg
    cases hg

theorem goes_fill {f : FileNo} {x : File → File} (hx : ∀ y, (x y).ref = y.ref ∧ (x y).type ≠ .pipe) :
    Goes p (fill f x) (has tb [] [] [f] child) fun _ t => t = has tb [] [] [] child := by
  refine goes_act fun s own hK hp => ⟨has tb [] [] [] child, ?_, Triple.ret rfl⟩
  have := hK.fill (f := f) (x := x) (has_table hp rfl) (by rw [hp]; exact List.mem_singleton.mpr rfl) (by rw [hp]) hx
  rwa [hp] at this

end Functions

end Farron.Files
