import Farron.File.Calls

/-! Processes that begin and end.

A `fork` fills in the descriptors of its child while the child is still UNUSED, one by one,
each with a reference it has just made; an `exit` empties its own one by one. -/
namespace Farron.Files
open Resumption
variable {ι : Type} [Fintype ι] [DecidableEq ι]

namespace Procs
variable {s s' : World ι} {own : ι → Hold ι} {p : ι} {x : Hold ι}

omit [Fintype ι] in
/-- A step changes the life of process `j`. -/
theorem change (h : Procs s own) {j : ι} {l : Life} {o : Option ι} (hofile : s'.ofile = s.ofile)
    (hlife : s'.life = Function.update s.life j l) (hplock : s'.plock = Function.update s.plock j o)
    (htable : ∀ tb, x.table = some tb → s.ofile p = tb ∧ s'.life p = .alive) (hidle : x.table = none → x = .idle)
    (hlive : s.life j ≠ .alive ∨ j = p) (hfree : s.life j ≠ .unused ∨ s.plock j = none ∨ s.plock j = some p)
    (hmine : ∀ k m, (own p).child = some (k, m) → k = j)
    (hchild : ∀ k m, x.child = some (k, m) → k = j ∧ l = .unused ∧ o = some p ∧ ∀ fd ∈ m, s.ofile j fd = none)
    (hlock : ∀ i, o = some i → i = p ∧ ∃ m, x.child = some (j, m))
    (hvacant : l ≠ .alive → o = none → ∀ fd, s.ofile j fd = none) : Procs s' (Function.update own p x) := by
  refine ⟨fun i tb ht => ?_, fun i ht => ?_, fun i k m hm => ?_, fun i k hk => ?_, fun k hk hl fd => ?_⟩
  · rw [hofile]
    by_cases hi : i = p
    · subst hi
      rw [Function.update_self] at ht
      exact htable tb ht
    · rw [Function.update_of_ne hi] at ht
      obtain ⟨htb, hal⟩ := h.table i tb ht
      refine ⟨htb, ?_⟩
      have hij : i ≠ j := by
        intro hij
        subst hij
        rcases hlive with hn | rfl
        · exact hn hal
        · exact hi rfl
      rw [hlife, Function.update_of_ne hij]
      exact hal
  · by_cases hi : i = p
    · subst hi
      rw [Function.update_self] at ht ⊢
      exact hidle ht
    · rw [Function.update_of_ne hi] at ht ⊢
      exact h.idle i ht
  · rw [hofile, hlife, hplock]
    by_cases hi : i = p
    · subst hi
      rw [Function.update_self] at hm
      obtain ⟨rfl, hl, ho, hfds⟩ := hchild k m hm
      rw [Function.update_self, Function.update_self]
      exact ⟨hl, ho, hfds⟩
    · rw [Function.update_of_ne hi] at hm
      obtain ⟨hun, hpl, hfds⟩ := h.child i k m hm
      have hkj : k ≠ j := by
        intro hkj
        subst hkj
        rcases hfree with hn | hn | hn
        · exact hn hun
        · rw [hn] at hpl
          cases hpl
        · rw [hn] at hpl
          exact hi (Option.some.inj hpl).symm
      rw [Function.update_of_ne hkj, Function.update_of_ne hkj]
      exact ⟨hun, hpl, hfds⟩
  · rw [hplock] at hk
    by_cases hkj : k = j
    · subst hkj
      rw [Function.update_self] at hk
      obtain ⟨rfl, m, hm⟩ := hlock i hk
      exact ⟨m, by rw [Function.update_self]; exact hm⟩
    · rw [Function.update_of_ne hkj] at hk
      obtain ⟨m, hm⟩ := h.plock i k hk
      have hi : i ≠ p := by
        intro hi
        subst hi
        exact hkj (hmine k m hm)
      exact ⟨m, by rw [Function.update_of_ne hi]; exact hm⟩
  · rw [hofile]
    rw [hlife] at hk
    rw [hplock] at hl
    by_cases hkj : k = j
    · subst hkj
      rw [Function.update_self] at hk hl
      exact hvacant hk hl fd
    · rw [Function.update_of_ne hkj] at hk hl
      exact h.vacant k hk hl fd

omit [Fintype ι] in
/-- A `fork` goes on to the next descriptors of its child. -/
theorem childFd (h : Procs s own) {j : ι} {m l : List Fd} (hc : (own p).child = some (j, m))
    (hofile : ∀ i, i ≠ j → s'.ofile i = s.ofile i) (hlife : s'.life = s.life) (hplock : s'.plock = s.plock)
    (htable : x.table = (own p).table) (hp : (own p).table ≠ none) (hx : x.child = some (j, l))
    (hl : ∀ fd ∈ l, s'.ofile j fd = none) : Procs s' (Function.update own p x) := by
  obtain ⟨hun, hpl, -⟩ := h.child p j m hc
  have htab : ∀ i, (Function.update own p x i).table = (own i).table := by
    intro i
    by_cases hi : i = p
    · subst hi
      rw [Function.update_self, htable]
    · rw [Function.update_of_ne hi]
  refine ⟨fun i tb ht => ?_, fun i ht => ?_, fun i k m' hm => ?_, fun i k hk => ?_, fun k hk hkl fd => ?_⟩
  · rw [htab] at ht
    obtain ⟨htb, hal⟩ := h.table i tb ht
    have hij : i ≠ j := by
      intro hij
      rw [hij, hun] at hal
      cases hal
    rw [hofile i hij, hlife]
    exact ⟨htb, hal⟩
  · rw [htab] at ht
    have hi : i ≠ p := by
      intro hi
      subst hi
      exact hp ht
    rw [Function.update_of_ne hi]
    exact h.idle i ht
  · rw [hlife, hplock]
    by_cases hi : i = p
    · subst hi
      rw [Function.update_self, hx] at hm
      cases hm
      exact ⟨hun, hpl, hl⟩
    · rw [Function.update_of_ne hi] at hm
      obtain ⟨hun', hpl', hfds⟩ := h.child i k m' hm
      have hkj : k ≠ j := by
        intro hkj
        rw [hkj, hpl] at hpl'
        exact hi (Option.some.inj hpl').symm
      rw [hofile k hkj]
      exact ⟨hun', hpl', hfds⟩
  · rw [hplock] at hk
    obtain ⟨m', hm⟩ := h.plock i k hk
    by_cases hi : i = p
    · subst hi
      rw [hc] at hm
      cases hm
      exact ⟨l, by rw [Function.update_self]; exact hx⟩
    · exact ⟨m', by rw [Function.update_of_ne hi]; exact hm⟩
  · rw [hlife] at hk
    rw [hplock] at hkl
    have hkj : k ≠ j := by
      intro hkj
      rw [hkj, hpl] at hkl
      cases hkl
    rw [hofile k hkj]
    exact h.vacant k hk hkl fd

end Procs

/-! ### Sections -/

/-- Between calls. -/
def Rest (x : Hold ι) : Prop := ∃ tb, x = ⟨tb, [], [], [], none, none⟩

namespace Kept
variable {s s' : World ι} {own : ι → Hold ι} {p : ι} {x : Hold ι}

/-- Files and pipes are left alone. -/
theorem stay (h : Kept s own) (hftable : s'.ftable = s.ftable) (hofile : s'.ofile = s.ofile) (huse : s'.use = s.use)
    (hends : s'.ends = s.ends) (howed : x.owed = (own p).owed) (hextra : x.extra = (own p).extra)
    (hnew : x.new = (own p).new) (hclosing : x.closing = (own p).closing) (hprocs : Procs s' (Function.update own p x)) :
    Kept s' (Function.update own p x) := by
  refine ⟨h.refs.stay hofile (fun f => ?_) (fun f => ?_) (fun f hf => ?_),
    h.pipes.stay (fun f => ?_) (fun pg => by rw [huse]) hends hclosing (fun f hf => ?_) (fun f hf => ?_), hprocs⟩
  · rw [hftable, howed, hextra]
  · rw [hextra]
    exact h.refs.slots p f
  · rw [hnew] at hf
    rw [hextra, howed]
    exact h.refs.new p f hf
  · rw [hftable]
    exact ⟨rfl, rfl, rfl⟩
  · rwa [hftable] at hf
  · rw [hnew] at hf
    exact .inl hf

theorem enter (h : Kept s own) (hrest : Rest (own p)) (hlife : s.life p = .alive) :
    Kept s (Function.update own p (has (s.ofile p) [] [] [] none)) := by
  obtain ⟨tb, hp⟩ := hrest
  refine h.stay rfl rfl rfl rfl (by rw [hp]) (by rw [hp]) (by rw [hp]) (by rw [hp]) ?_
  refine h.procs.change (j := p) (l := s.life p) (o := s.plock p) rfl (Function.update_eq_self ..).symm
    (Function.update_eq_self ..).symm (fun tb' ht => ?_) (fun ht => nomatch ht) (.inr rfl) (.inl ?_) (fun k m hm => ?_)
    (fun k m hm => nomatch hm) (fun i hi => ?_) (fun hn => absurd hlife hn)
  · cases ht
    exact ⟨rfl, hlife⟩
  · rw [hlife]
    decide
  · rw [hp] at hm
    cases hm
  · obtain ⟨m, hm⟩ := h.procs.plock i p hi
    have := (h.procs.child i p m hm).1
    rw [hlife] at this
    cases this

/-- A `fork` finds an UNUSED process. -/
theorem found (h : Kept s own) {tb : Table} (hp : own p = has tb [] [] [] none) {j : ι} (hun : s.life j = .unused)
    (hpl : s.plock j = none) :
    Kept (s.setLock j (some p)) (Function.update own p (has tb [] [] [] (some (j, List.finRange nofile)))) := by
  obtain ⟨htb, hal⟩ := h.procs.table p tb (by rw [hp])
  have hempty := h.procs.vacant j (by rw [hun]; decide) hpl
  refine h.stay rfl rfl rfl rfl (by rw [hp]) (by rw [hp]) (by rw [hp]) (by rw [hp]) ?_
  refine h.procs.change (j := j) (l := s.life j) (o := some p) rfl (Function.update_eq_self ..).symm rfl
    (fun tb' ht => ?_) (fun ht => nomatch ht) (.inl ?_) (.inr (.inl hpl)) (fun k m hm => ?_) (fun k m hm => ?_)
    (fun i hi => ?_) (fun _ ho => nomatch ho)
  · cases ht
    exact ⟨htb, hal⟩
  · rw [hun]
    decide
  · rw [hp] at hm
    cases hm
  · cases hm
    exact ⟨rfl, hun, rfl, fun fd _ => hempty fd⟩
  · cases hi
    exact ⟨rfl, _, rfl⟩

/-- The child is started, or was not to be. -/
theorem born (h : Kept s own) {tb : Table} {j : ι} {m : List Fd} (hp : own p = has tb [] [] [] (some (j, m))) {l : Life}
    (hl : l = .alive ∨ m = List.finRange nofile) :
    Kept ((s.setLife j l).setLock j none) (Function.update own p (has tb [] [] [] none)) := by
  obtain ⟨htb, hal⟩ := h.procs.table p tb (by rw [hp])
  obtain ⟨hun, hpl, hfds⟩ := h.procs.child p j m (by rw [hp])
  have hpj : p ≠ j := by
    intro hpj
    rw [hpj, hun] at hal
    cases hal
  refine h.stay rfl rfl rfl rfl (by rw [hp]) (by rw [hp]) (by rw [hp]) (by rw [hp]) ?_
  refine h.procs.change (j := j) (l := l) (o := none) rfl rfl rfl
    (fun tb' ht => ?_) (fun ht => nomatch ht) (.inl ?_) (.inr (.inr hpl)) (fun k m' hm => ?_) (fun k m' hm => nomatch hm)
    (fun i hi => nomatch hi) (fun hn _ fd => ?_)
  · cases ht
    refine ⟨htb, ?_⟩
    show Function.update s.life j l p = _
    rw [Function.update_of_ne hpj]
    exact hal
  · rw [hun]
    decide
  · rw [hp] at hm
    cases hm
    rfl
  · rcases hl with rfl | rfl
    · exact absurd rfl hn
    · exact hfds fd (List.mem_finRange fd)

/-- A process ends. -/
theorem dead (h : Kept s own) (hp : own p = has (fun _ => none) [] [] [] none) :
    Kept (s.setLife p .zombie) (Function.update own p .idle) := by
  obtain ⟨htb, hal⟩ := h.procs.table p _ (by rw [hp])
  refine h.stay rfl rfl rfl rfl (by rw [hp]; rfl) (by rw [hp]; rfl) (by rw [hp]; rfl) (by rw [hp]; rfl) ?_
  refine h.procs.change (j := p) (l := .zombie) (o := s.plock p) rfl rfl (Function.update_eq_self ..).symm
    (fun tb' ht => nomatch ht) (fun _ => rfl) (.inr rfl) (.inl ?_) (fun k m hm => ?_) (fun k m hm => nomatch hm)
    (fun i hi => ?_) (fun _ _ fd => by rw [htb])
  · rw [hal]
    decide
  · rw [hp] at hm
    cases hm
  · obtain ⟨m, hm⟩ := h.procs.plock i p hi
    have := (h.procs.child i p m hm).1
    rw [hal] at this
    cases this

/-- A process that has ended is waited for. -/
theorem reaped (h : Kept s own) {tb : Table} (hp : own p = has tb [] [] [] none) {j : ι} (hj : s.life j = .zombie) :
    Kept (s.setLife j .unused) (Function.update own p (has tb [] [] [] none)) := by
  obtain ⟨htb, hal⟩ := h.procs.table p tb (by rw [hp])
  have hlock : s.plock j = none := by
    cases hi : s.plock j with
    | none => rfl
    | some i =>
      obtain ⟨m, hm⟩ := h.procs.plock i j hi
      have := (h.procs.child i j m hm).1
      rw [hj] at this
      cases this
  have hpj : p ≠ j := by
    intro hpj
    rw [hpj, hj] at hal
    cases hal
  refine h.stay rfl rfl rfl rfl (by rw [hp]) (by rw [hp]) (by rw [hp]) (by rw [hp]) ?_
  refine h.procs.change (j := j) (l := .unused) (o := s.plock j) rfl rfl (Function.update_eq_self ..).symm
    (fun tb' ht => ?_) (fun ht => nomatch ht) (.inl ?_) (.inr (.inl hlock)) (fun k m hm => ?_) (fun k m hm => nomatch hm)
    (fun i hi => ?_) (fun _ _ => h.procs.vacant j ?_ hlock)
  · cases ht
    refine ⟨htb, ?_⟩
    show Function.update s.life j _ p = _
    rw [Function.update_of_ne hpj]
    exact hal
  · rw [hj]
    decide
  · rw [hp] at hm
    cases hm
  · rw [hlock] at hi
    cases hi
  · rw [hj]
    decide

/-- A descriptor that the parent has not got. -/
theorem skip (h : Kept s own) {tb : Table} {j : ι} {fd : Fd} {l : List Fd}
    (hp : own p = has tb [] [] [] (some (j, fd :: l))) : Kept s (Function.update own p (has tb [] [] [] (some (j, l)))) := by
  have hc : (own p).child = some (j, fd :: l) := by rw [hp]
  refine h.stay rfl rfl rfl rfl (by rw [hp]) (by rw [hp]) (by rw [hp]) (by rw [hp]) ?_
  exact h.procs.childFd hc (fun _ _ => rfl) rfl rfl (by rw [hp]) (has_table hp rfl) rfl
    fun fd' hfd => (h.procs.child p j _ hc).2.2 fd' (List.mem_cons_of_mem _ hfd)

/-- A descriptor of the child takes over a reference. -/
theorem hand (h : Kept s own) {tb : Table} {j : ι} {fd : Fd} {l : List Fd} {f : FileNo} (hnd : fd ∉ l)
    (hp : own p = has tb [f] [] [] (some (j, fd :: l))) :
    Kept (s.setFd j fd (some f)) (Function.update own p (has tb [] [] [] (some (j, l)))) := by
  have hc : (own p).child = some (j, fd :: l) := by rw [hp]
  obtain ⟨hun, -, hfds⟩ := h.procs.child p j _ hc
  obtain ⟨htb, hal⟩ := h.procs.table p tb (by rw [hp])
  have hpj : p ≠ j := by
    intro hpj
    rw [hpj, hun] at hal
    cases hal
  have hcount := (s.ofile j).count_store (hfds fd List.mem_cons_self) f
  refine ⟨h.refs.step j (Function.update (s.ofile j) fd (some f)) rfl (fun g => ?_) (fun g => ?_)
    (fun _ g => ?_) (fun g hg => nomatch hg), h.pipes.stay (fun _ => ⟨rfl, rfl, rfl⟩) (fun _ => Iff.rfl) rfl (by rw [hp])
    (fun _ hg => hg) (fun g hg => nomatch hg), h.procs.childFd hc (fun i hi => ?_) rfl rfl (by rw [hp]) (has_table hp rfl) rfl
    (fun fd' hfd => ?_)⟩
  · rw [hcount, hp, count_cons_if]
    show (s.ftable g).ref + _ + _ + _ = _
    simp only [List.count_nil]
    omega
  · simp
  · rw [hcount]
    omega
  · exact Function.update_of_ne hi ..
  · have hne : fd' ≠ fd := by
      intro he
      subst he
      exact hnd hfd
    show Function.update s.ofile j _ j fd' = none
    rw [Function.update_self, Function.update_of_ne hne]
    exact hfds fd' (List.mem_cons_of_mem _ hfd)

end Kept

/-! ### Programs -/

section Programs
variable {p : ι} {tb : Table}

/-- A call begins with whatever descriptors the process has. -/
theorem goes_enter {α : Type} {x : Hold ι} (hx : Rest x) {k : Unit → Code ι α} {Q : α → Hold ι → Prop}
    (hk : ∀ tb, Goes p (k ()) (has tb [] [] [] none) Q) : Goes p (enter p >>= k) x Q := by
  intro s own s' hK hp _ hf
  simp only at hf
  by_cases hlife : s.life p = .alive
  · rw [if_pos hlife] at hf
    cases hf
    exact ⟨trivial, _, hK.enter (by rw [hp]; exact hx) hlife, hk _⟩
  · rw [if_neg hlife] at hf
    cases hf

theorem goes_filedup {f : FileNo} {owed extra : List FileNo} (owed' extra' : List FileNo) {child : Option (ι × List Fd)}
    (hpos : extra.count f < tb.count f + owed.count f)
    (hbal : ∀ g, owed'.count g + extra.count g = owed.count g + extra'.count g + if g = f then 1 else 0)
    (hslots : ∀ g, extra'.count g ≤ tb.count g) :
    Goes p (filedup f) (has tb owed extra [] child) fun _ t => t = has tb owed' extra' [] child := by
  refine goes_act fun s own hK hp => ⟨has tb owed' extra' [] child, ?_, ?_⟩
  · have htb : s.ofile p = tb := hK.ofile_eq (by rw [hp])
    have hlive : 0 < (s.ftable f).ref := hK.refs.pos (p := p) (by rw [hp, htb]; exact hpos)
    have := hK.filedup (has_table hp rfl) owed' extra' hlive (by rw [hp]; exact hbal)
      (by rw [htb]; exact hslots) (by rw [hp]; exact fun g hg => nomatch hg)
    rwa [hp] at this
  · have htb : s.ofile p = tb := hK.ofile_eq (by rw [hp])
    have hlive : 0 < (s.ftable f).ref := hK.refs.pos (p := p) (by rw [hp, htb]; exact hpos)
    rw [if_neg (by omega)]
    exact Triple.ret rfl

theorem goes_allocproc (proc : List ι) : Goes p (allocproc p proc) (has tb [] [] [] none) fun r t =>
    t = has tb [] [] [] (r.map fun j => (j, List.finRange nofile)) := by
  induction proc with
  | nil => exact Triple.ret rfl
  | cons j rest ih =>
    intro s own s' hK hp _ hf
    simp only at hf
    by_cases hpl : s.plock j = none
    · rw [if_pos hpl] at hf
      cases hf
      by_cases hun : s.life j = .unused
      · simp only [if_pos hun]
        exact ⟨trivial, _, hK.found hp hun hpl, Triple.ret rfl⟩
      · simp only [if_neg hun]
        exact ⟨trivial, _, by rw [update_same hp]; exact hK, ih⟩
    · rw [if_neg hpl] at hf
      cases hf

/-- The descriptors that are still to be copied are those at the end of the list. -/
theorem goes_dupAll {j : ι} {l : List Fd} (hnd : l.Nodup) :
    Goes p (dupAll p j l) (has tb [] [] [] (some (j, l))) fun _ t => t = has tb [] [] [] (some (j, [])) := by
  induction l with
  | nil => exact Triple.ret rfl
  | cons fd rest ih =>
    intro s own s' hK hp _ hf
    cases hf
    have htb : s.ofile p = tb := hK.ofile_eq (by rw [hp])
    have hrest := ih (List.nodup_cons.mp hnd).2
    simp only [htb]
    cases hfd : tb fd with
    | none => exact ⟨trivial, _, hK.skip hp, hrest⟩
    | some f =>
      refine ⟨trivial, _, by rw [update_same hp]; exact hK, ?_⟩
      refine goes_seq (y := has tb [f] [] [] (some (j, fd :: rest))) (goes_filedup _ _ ?_ (fun g => ?_) (fun g => ?_)) fun _ =>
        goes_seq (y := has tb [] [] [] (some (j, rest))) (goes_act fun s own hK hp => ?_) fun _ => hrest
      · have := Table.count_pos hfd
        simpa using this
      · rw [count_cons_if]
        simp
      · simp
      · exact ⟨_, hK.hand (List.nodup_cons.mp hnd).1 hp, Triple.ret rfl⟩

theorem goes_fork (proc : List ι) (enough : Bool) {x : Hold ι} (hx : Rest x) :
    Goes p (fork p proc enough) x fun _ => Rest := by
  refine goes_enter hx fun tb => Triple.bind (goes_allocproc proc) fun r t ht => ?_
  cases r with
  | none => exact Triple.ret ⟨_, ht⟩
  | some j =>
    rw [ht]
    cases enough with
    | true =>
      refine goes_seq (goes_dupAll (List.nodup_finRange _)) fun _ => goes_act fun s own hK hp => ?_
      exact ⟨_, hK.born hp (.inl rfl), Triple.ret ⟨_, rfl⟩⟩
    | false =>
      refine goes_act fun s own hK hp => ?_
      exact ⟨_, hK.born hp (.inr rfl), Triple.ret ⟨_, rfl⟩⟩

/-- What is not in the list has been closed. -/
theorem goes_closeAll {l : List Fd} (hclosed : ∀ fd, fd ∉ l → tb fd = none) :
    Goes p (closeAll p l) (has tb [] [] [] none) fun _ t => t = has (fun _ => none) [] [] [] none := by
  induction l generalizing tb with
  | nil =>
    have htb : tb = fun _ => none := by
      funext fd
      exact hclosed fd List.not_mem_nil
    rw [htb]
    exact Triple.ret rfl
  | cons fd rest ih =>
    refine goes_look fun s own hK hp => ?_
    have htb : s.ofile p = tb := hK.ofile_eq (by rw [hp])
    simp only [htb]
    cases hfd : tb fd with
    | none =>
      refine ih fun fd' hn => ?_
      by_cases he : fd' = fd
      · rw [he]
        exact hfd
      · exact hclosed fd' (List.not_mem_cons_of_ne_of_not_mem he hn)
    | some f =>
      have hpos := Table.count_pos hfd
      refine goes_seq (y := has tb [] [f] [] none) (goes_fileclose ?_ (fun g => ?_) (fun g => ?_) (fun g hg => hg)
        (fun g hg => by cases hg)) fun _ => goes_seq (goes_setFd_gone hfd) fun _ => ih fun fd' hn => ?_
      · simpa using hpos
      · rw [count_cons_if]
        simp
      · rw [count_cons_if]
        by_cases hg : g = f
        · subst hg
          simp only [List.count_nil, if_true]
          omega
        · simp [hg]
      · by_cases he : fd' = fd
        · rw [he, Function.update_self]
        · rw [Function.update_of_ne he]
          exact hclosed fd' (List.not_mem_cons_of_ne_of_not_mem he hn)

theorem goes_exit (initproc : ι) {x : Hold ι} (hx : Rest x) : Goes p (exit p initproc) x fun _ => Rest := by
  refine goes_enter hx fun tb => ?_
  by_cases hp : p = initproc
  · rw [if_pos hp]
    exact Triple.stop (Allowed.panic (by decide) (by decide))
  · rw [if_neg hp]
    refine goes_seq (goes_closeAll fun fd hn => absurd (List.mem_finRange fd) hn) fun _ => goes_act fun s own hK hp => ?_
    exact ⟨_, hK.dead hp, Triple.ret ⟨none, rfl⟩⟩

theorem goes_wait (j : ι) {x : Hold ι} (hx : Rest x) : Goes p (wait p j) x fun _ => Rest := by
  refine goes_enter hx fun tb => goes_act fun s own hK hp => ⟨has tb [] [] [] none, ?_, Triple.ret ⟨_, rfl⟩⟩
  by_cases hj : s.life j = .zombie
  · rw [if_pos hj]
    exact hK.reaped hp hj
  · rw [if_neg hj, update_same hp]
    exact hK

end Programs

end Farron.Files
