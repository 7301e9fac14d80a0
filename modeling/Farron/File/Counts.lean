import Farron.File.Table
import Farron.Holders.Exchange
import Farron.Resumption.Rely

/-! What is kept of the references to open files.

A process may owe a reference that no descriptor of it shows (`owed`), and may have a
descriptor without its reference (`extra`); so the references of a file and these
descriptors are as many as all descriptors and what is owed (`Refs`). A pipe is kept as long
as an end of it is open or about to be closed (`Pipes`): each open end has one holder, and what
a section does is an exchange or a handing over (`pipes_iff`). The descriptors of a
process that is not alive are empty but for what a `fork` has filled in (`Procs`). -/
namespace Farron.Files
open Resumption

abbrev FileNo := Fin nfile

/-- What a process has in a call: its descriptors; references without a descriptor,
descriptors without a reference, and files that are still to be filled in; the end of a
pipe it is about to close, or the pipe it is about to free; and the child it makes, with
the descriptors that are still to be filled in. -/
structure Hold (ι : Type) where
  table : Option Table
  owed : List FileNo
  extra : List FileNo
  new : List FileNo
  closing : Option (Page × Option Bool)
  child : Option (ι × List Fd)

def Hold.idle {ι : Type} : Hold ι := ⟨none, [], [], [], none, none⟩

/-- How many descriptors show the file. -/
def Table.count (tb : Table) (f : FileNo) : Nat := ∑ fd, if tb fd = some f then 1 else 0

theorem Table.count_update (tb : Table) (fd : Fd) (b : Option FileNo) (f : FileNo) :
    Table.count (Function.update tb fd b) f + (if tb fd = some f then 1 else 0) =
      tb.count f + if b = some f then 1 else 0 :=
  sum_update tb fd b fun x => if x = some f then 1 else 0

theorem Table.count_store (tb : Table) {fd : Fd} (h : tb fd = none) (f g : FileNo) :
    Table.count (Function.update tb fd (some f)) g = tb.count g + if g = f then 1 else 0 := by
  have hu := tb.count_update fd (some f) g
  rw [h] at hu
  simp only [reduceCtorEq, if_false, Option.some.injEq, Nat.add_zero] at hu
  rw [hu]
  exact congrArg (tb.count g + ·) (if_congr eq_comm rfl rfl)

theorem Table.count_clear (tb : Table) {fd : Fd} {f : FileNo} (h : tb fd = some f) (g : FileNo) :
    Table.count (Function.update tb fd none) g + (if g = f then 1 else 0) = tb.count g := by
  have hu := tb.count_update fd none g
  rw [h] at hu
  simp only [reduceCtorEq, if_false, Option.some.injEq, Nat.add_zero] at hu
  rw [← hu]
  exact congrArg (Table.count (Function.update tb fd none) g + ·) (if_congr eq_comm rfl rfl)

theorem Table.count_pos {tb : Table} {fd : Fd} {f : FileNo} (h : tb fd = some f) : 0 < tb.count f := by
  have hle := Finset.single_le_sum (f := fun fd => if tb fd = some f then 1 else 0) (fun _ _ => Nat.zero_le _)
    (Finset.mem_univ fd)
  simp only [h, if_true] at hle
  exact hle

theorem Table.count_empty (f : FileNo) : Table.count (fun _ => none) f = 0 := by simp [Table.count]

variable {ι : Type} [Fintype ι] [DecidableEq ι]

/-- The references of the files. -/
structure Refs (s : World ι) (own : ι → Hold ι) : Prop where
  refs : ∀ f, (s.ftable f).ref + ∑ i, (own i).extra.count f = ∑ i, (s.ofile i).count f + ∑ i, (own i).owed.count f
  slots : ∀ i f, (own i).extra.count f ≤ (s.ofile i).count f
  new : ∀ i f, f ∈ (own i).new → (own i).extra.count f < (s.ofile i).count f + (own i).owed.count f

/-- The files of pipes, and the pipes. -/
structure Pipes (s : World ι) (own : ι → Hold ι) : Prop where
  closed : ∀ f, (s.ftable f).ref = 0 → (s.ftable f).type = .none
  new : ∀ i f, f ∈ (own i).new → (s.ftable f).type = .none
  one : ∀ i j f, f ∈ (own i).new → f ∈ (own j).new → i = j
  pipe : ∀ f, (s.ftable f).type = .pipe → ∃ pg, (s.ftable f).pipe = some pg ∧ s.use pg = .pipe ∧
    (s.ends pg).isOpen (s.ftable f).writable = true
  ends : ∀ f f', (s.ftable f).type = .pipe → (s.ftable f').type = .pipe → (s.ftable f).pipe = (s.ftable f').pipe →
    (s.ftable f).writable = (s.ftable f').writable → f = f'
  isOpen : ∀ pg w, s.use pg = .pipe → (s.ends pg).isOpen w = true →
    (∃ f, (s.ftable f).type = .pipe ∧ (s.ftable f).pipe = some pg ∧ (s.ftable f).writable = w) ∨
      ∃ i, (own i).closing = some (pg, some w)
  shut : ∀ pg, s.use pg = .pipe → (s.ends pg).isOpen false = false → (s.ends pg).isOpen true = false →
    ∃ i, (own i).closing = some (pg, none)
  closing : ∀ i pg w, (own i).closing = some (pg, some w) → s.use pg = .pipe ∧ (s.ends pg).isOpen w = true ∧
    ∀ f, (s.ftable f).type = .pipe → (s.ftable f).pipe = some pg → (s.ftable f).writable ≠ w
  freeing : ∀ i pg, (own i).closing = some (pg, none) → s.use pg = .pipe ∧ (s.ends pg).isOpen false = false ∧
    (s.ends pg).isOpen true = false
  alone : ∀ i j y, (own i).closing = some y → (own j).closing = some y → i = j

/-- The processes. -/
structure Procs (s : World ι) (own : ι → Hold ι) : Prop where
  table : ∀ i tb, (own i).table = some tb → s.ofile i = tb ∧ s.life i = .alive
  idle : ∀ i, (own i).table = none → own i = .idle
  child : ∀ i j l, (own i).child = some (j, l) → s.life j = .unused ∧ s.plock j = some i ∧ ∀ fd ∈ l, s.ofile j fd = none
  plock : ∀ i j, s.plock j = some i → ∃ l, (own i).child = some (j, l)
  vacant : ∀ j, s.life j ≠ .alive → s.plock j = none → ∀ fd, s.ofile j fd = none

/-- The invariant. -/
structure Kept (s : World ι) (own : ι → Hold ι) : Prop where
  refs : Refs s own
  pipes : Pipes s own
  procs : Procs s own

/-! ### References -/

namespace Refs
variable {s s' : World ι} {own : ι → Hold ι} {p : ι}

omit [DecidableEq ι] in
/-- A file that a process has a reference of is in use. -/
theorem pos (h : Refs s own) {f : FileNo} (hp : (own p).extra.count f < (s.ofile p).count f + (own p).owed.count f) :
    0 < (s.ftable f).ref := by
  have hlt : ∑ i, (own i).extra.count f < ∑ i, ((s.ofile i).count f + (own i).owed.count f) :=
    Finset.sum_lt_sum (fun i _ => (h.slots i f).trans (Nat.le_add_right ..)) ⟨p, Finset.mem_univ p, hp⟩
  rw [Finset.sum_add_distrib] at hlt
  have := h.refs f
  omega

/-- The balance of one step of process `p`, which changes at most the descriptors of `q`. -/
theorem step (h : Refs s own) (q : ι) {x : Hold ι} (tb : Table) (hofile : s'.ofile = Function.update s.ofile q tb)
    (hbal : ∀ f, (s'.ftable f).ref + x.extra.count f + (s.ofile q).count f + (own p).owed.count f =
      (s.ftable f).ref + (own p).extra.count f + tb.count f + x.owed.count f)
    (hslots : ∀ f, x.extra.count f ≤ (s'.ofile p).count f)
    (hgrow : q ≠ p → ∀ f, (s.ofile q).count f ≤ tb.count f)
    (hnew : ∀ f, f ∈ x.new → x.extra.count f < (s'.ofile p).count f + x.owed.count f) :
    Refs s' (Function.update own p x) := by
  have hothers : ∀ i, i ≠ p → ∀ f, (s.ofile i).count f ≤ (s'.ofile i).count f := by
    intro i hi f
    rw [hofile]
    by_cases hiq : i = q
    · subst hiq
      rw [Function.update_self]
      exact hgrow hi f
    · rw [Function.update_of_ne hiq]
  refine ⟨fun f => ?_, fun i f => ?_, fun i f hf => ?_⟩
  · have hextra := sum_update own p x fun y => y.extra.count f
    have howed := sum_update own p x fun y => y.owed.count f
    have hcount := sum_update s.ofile q tb fun y => y.count f
    rw [hofile]
    have := h.refs f
    have := hbal f
    omega
  · by_cases hi : i = p
    · subst hi
      rw [Function.update_self]
      exact hslots f
    · rw [Function.update_of_ne hi]
      exact (h.slots i f).trans (hothers i hi f)
  · by_cases hi : i = p
    · subst hi
      rw [Function.update_self] at hf ⊢
      exact hnew f hf
    · rw [Function.update_of_ne hi] at hf ⊢
      exact (h.new i f hf).trans_le (Nat.add_le_add_right (hothers i hi f) _)

/-- A step that leaves all descriptors alone. -/
theorem stay (h : Refs s own) {x : Hold ι} (hofile : s'.ofile = s.ofile)
    (hbal : ∀ f, (s'.ftable f).ref + x.extra.count f + (own p).owed.count f =
      (s.ftable f).ref + (own p).extra.count f + x.owed.count f)
    (hslots : ∀ f, x.extra.count f ≤ (s.ofile p).count f)
    (hnew : ∀ f, f ∈ x.new → x.extra.count f < (s.ofile p).count f + x.owed.count f) :
    Refs s' (Function.update own p x) := by
  refine h.step p (s.ofile p) (by rw [hofile, Function.update_eq_self]) (fun f => ?_) (fun f => ?_)
    (fun hp => absurd rfl hp) fun f hf => ?_
  · have := hbal f
    omega
  · rw [hofile]
    exact hslots f
  · rw [hofile]
    exact hnew f hf

end Refs

/-! ### Processes -/

namespace Procs
variable {s s' : World ι} {own : ι → Hold ι} {p : ι} {x : Hold ι}

omit [Fintype ι] in
/-- A step that changes neither descriptors nor processes. -/
theorem stay (h : Procs s own) (hofile : s'.ofile = s.ofile) (hlife : s'.life = s.life) (hplock : s'.plock = s.plock)
    (htable : x.table = (own p).table) (hchild : x.child = (own p).child) (hp : (own p).table ≠ none) :
    Procs s' (Function.update own p x) := by
  have htab : ∀ i, (Function.update own p x i).table = (own i).table := by
    intro i
    by_cases hi : i = p
    · subst hi
      rw [Function.update_self, htable]
    · rw [Function.update_of_ne hi]
  have hch : ∀ i, (Function.update own p x i).child = (own i).child := by
    intro i
    by_cases hi : i = p
    · subst hi
      rw [Function.update_self, hchild]
    · rw [Function.update_of_ne hi]
  refine ⟨fun i tb ht => ?_, fun i ht => ?_, fun i j l hl => ?_, fun i j hl => ?_, fun j hj hl fd => ?_⟩
  · rw [htab] at ht
    rw [hofile, hlife]
    exact h.table i tb ht
  · rw [htab] at ht
    have hi : i ≠ p := by
      intro hi
      subst hi
      exact hp ht
    rw [Function.update_of_ne hi]
    exact h.idle i ht
  · rw [hch] at hl
    rw [hlife, hplock, hofile]
    exact h.child i j l hl
  · rw [hplock] at hl
    rw [hch]
    exact h.plock i j hl
  · rw [hlife] at hj
    rw [hplock] at hl
    rw [hofile]
    exact h.vacant j hj hl fd

omit [Fintype ι] in
/-- A process changes a descriptor of its own. -/
theorem setFd (h : Procs s own) {tb : Table} (hp : (own p).table = some tb) {fd : Fd} {b : Option FileNo}
    (htable : x.table = some (Function.update tb fd b)) (hchild : x.child = (own p).child) :
    Procs (s.setFd p fd b) (Function.update own p x) := by
  obtain ⟨htb, hlife⟩ := h.table p tb hp
  have hofile : ∀ i, i ≠ p → (s.setFd p fd b).ofile i = s.ofile i := fun i hi => Function.update_of_ne hi ..
  refine ⟨fun i tb' ht => ?_, fun i ht => ?_, fun i j l hl => ?_, fun i j hl => ?_, fun j hj hl fd' => ?_⟩
  · by_cases hi : i = p
    · subst hi
      rw [Function.update_self, htable] at ht
      cases ht
      refine ⟨?_, hlife⟩
      show Function.update s.ofile i (Function.update (s.ofile i) fd b) i = _
      rw [Function.update_self, htb]
    · rw [Function.update_of_ne hi] at ht
      rw [hofile i hi]
      exact h.table i tb' ht
  · by_cases hi : i = p
    · subst hi
      rw [Function.update_self, htable] at ht
      cases ht
    · rw [Function.update_of_ne hi] at ht ⊢
      exact h.idle i ht
  · have hl' : (own i).child = some (j, l) := by
      by_cases hi : i = p
      · subst hi
        rwa [Function.update_self, hchild] at hl
      · rwa [Function.update_of_ne hi] at hl
    obtain ⟨h1, h2, h3⟩ := h.child i j l hl'
    have hj : j ≠ p := by
      intro hj
      rw [hj, hlife] at h1
      cases h1
    exact ⟨h1, h2, fun fd' hfd => by rw [hofile j hj]; exact h3 fd' hfd⟩
  · obtain ⟨l, hl'⟩ := h.plock i j hl
    refine ⟨l, ?_⟩
    by_cases hi : i = p
    · subst hi
      rwa [Function.update_self, hchild]
    · rwa [Function.update_of_ne hi]
  · have hjp : j ≠ p := by
      intro hjp
      subst hjp
      exact hj hlife
    rw [hofile j hjp]
    exact h.vacant j hj hl fd'

end Procs

/-! ### Pipes -/

/-- The end of a pipe that a file is. -/
def File.end? (x : File) : Option (Page × Option Bool) :=
  if x.type = .pipe then x.pipe.map fun pg => (pg, some x.writable) else none

theorem File.end?_eq_some {x : File} {pg : Page} {w : Option Bool} :
    x.end? = some (pg, w) ↔ x.type = .pipe ∧ x.pipe = some pg ∧ w = some x.writable := by
  unfold File.end?
  by_cases hx : x.type = .pipe
  · rw [if_pos hx, Option.map_eq_some_iff]
    simp only [Prod.mk.injEq, hx, true_and]
    constructor
    · rintro ⟨pg', hpg, rfl, hw⟩
      exact ⟨hpg, hw.symm⟩
    · rintro ⟨hpg, hw⟩
      exact ⟨pg, hpg, rfl, hw.symm⟩
  · simp [hx]

theorem File.end?_of_ne {x : File} (hx : x.type ≠ .pipe) : x.end? = none := if_neg hx

/-- Which ends of pipes the files are, and which ends and pipes the processes are about to close. -/
def holding (s : World ι) (own : ι → Hold ι) : FileNo ⊕ ι → Option (Page × Option Bool)
  | .inl f => (s.ftable f).end?
  | .inr i => (own i).closing

/-- The open ends of pipes, and the pipes without one. -/
def World.due (s : World ι) : Page × Option Bool → Prop
  | (pg, some w) => s.use pg = .pipe ∧ (s.ends pg).isOpen w = true
  | (pg, none) => s.use pg = .pipe ∧ ∀ w, (s.ends pg).isOpen w = false

/-- The files that are not in use or still to be filled in. -/
structure Blank (s : World ι) (own : ι → Hold ι) : Prop where
  closed : ∀ f, (s.ftable f).ref = 0 → (s.ftable f).type = .none
  new : ∀ i f, f ∈ (own i).new → (s.ftable f).type = .none
  one : ∀ i j f, f ∈ (own i).new → f ∈ (own j).new → i = j
  pipe : ∀ f, (s.ftable f).type = .pipe → (s.ftable f).end? ≠ none

section Holding
variable {s s' : World ι} {own : ι → Hold ι} {p : ι} {x : Hold ι}

omit [Fintype ι] in
theorem holding_update : holding s (Function.update own p x) = Function.update (holding s own) (.inr p) x.closing := by
  funext i
  cases i with
  | inl f => exact (Function.update_of_ne Sum.inl_ne_inr ..).symm
  | inr i =>
    show (Function.update own p x i).closing = _
    by_cases hi : i = p
    · subst hi
      rw [Function.update_self, Function.update_self]
    · rw [Function.update_of_ne hi, Function.update_of_ne fun he => hi (Sum.inr.inj he)]
      rfl

omit [Fintype ι] in
theorem holding_setFile (f : FileNo) (y : File) :
    holding (s.setFile f y) own = Function.update (holding s own) (.inl f) y.end? := by
  funext i
  cases i with
  | inr i => exact (Function.update_of_ne Sum.inr_ne_inl ..).symm
  | inl g =>
    show (Function.update s.ftable f y g).end? = _
    by_cases hg : g = f
    · subst hg
      rw [Function.update_self, Function.update_self]
    · rw [Function.update_of_ne hg, Function.update_of_ne fun he => hg (Sum.inl.inj he)]
      rfl

omit [Fintype ι] [DecidableEq ι] in
theorem due_none {pg : Page} : s.due (pg, none) ↔
    s.use pg = .pipe ∧ (s.ends pg).isOpen false = false ∧ (s.ends pg).isOpen true = false := by
  show s.use pg = .pipe ∧ (∀ w, (s.ends pg).isOpen w = false) ↔ _
  rw [Bool.forall_bool]

omit [Fintype ι] [DecidableEq ι] in
theorem due_congr (s s' : World ι) {pg : Page} (huse : s'.use pg = s.use pg) (hends : s'.ends pg = s.ends pg) (w : Option Bool) :
    s'.due (pg, w) ↔ s.due (pg, w) := by
  cases w <;> simp only [World.due, huse, hends]

omit [Fintype ι] [DecidableEq ι] in
theorem Pipes.blank (h : Pipes s own) : Blank s own := by
  refine ⟨h.closed, h.new, h.one, fun f hf hnone => ?_⟩
  obtain ⟨pg, hpg, -⟩ := h.pipe f hf
  rw [File.end?_eq_some.mpr ⟨hf, hpg, rfl⟩] at hnone
  cases hnone

omit [Fintype ι] [DecidableEq ι] in
theorem Pipes.each (h : Pipes s own) : Holders.Each (holding s own) s.due := by
  have hfile : ∀ {f a}, holding s own (.inl f) = some a → (s.ftable f).end? = some a := fun hf => hf
  refine ⟨fun {i a} hi => ?_, fun {i j a} hi hj => ?_, fun {a} ha => ?_⟩
  · obtain ⟨pg, w⟩ := a
    cases i with
    | inl f =>
      obtain ⟨hf, hpg, rfl⟩ := File.end?_eq_some.mp (hfile hi)
      obtain ⟨pg', hpg', hdue⟩ := h.pipe f hf
      cases hpg.symm.trans hpg'
      exact hdue
    | inr i =>
      cases w with
      | none => exact due_none.mpr (h.freeing i pg hi)
      | some w => exact ⟨(h.closing i pg w hi).1, (h.closing i pg w hi).2.1⟩
  · obtain ⟨pg, w⟩ := a
    -- a file is not the end that a process is about to close
    have hmixed : ∀ f i, holding s own (.inl f) = some (pg, w) → (own i).closing = some (pg, w) → False := by
      intro f i hf hi
      obtain ⟨hpipe, hpg, rfl⟩ := File.end?_eq_some.mp (hfile hf)
      exact (h.closing i pg _ hi).2.2 f hpipe hpg rfl
    cases i with
    | inl f =>
      cases j with
      | inl g =>
        obtain ⟨hf, hpg, rfl⟩ := File.end?_eq_some.mp (hfile hi)
        obtain ⟨hg, hpg', hw⟩ := File.end?_eq_some.mp (hfile hj)
        rw [h.ends f g hf hg (hpg.trans hpg'.symm) (Option.some.inj hw)]
      | inr j => exact (hmixed f j hi hj).elim
    | inr i =>
      cases j with
      | inl g => exact (hmixed g i hj hi).elim
      | inr j => rw [h.alone i j _ hi hj]
  · obtain ⟨pg, w⟩ := a
    cases w with
    | none =>
      obtain ⟨hu, h0, h1⟩ := due_none.mp ha
      obtain ⟨i, hi⟩ := h.shut pg hu h0 h1
      exact ⟨.inr i, hi⟩
    | some w =>
      obtain ⟨f, hf, hpg, rfl⟩ | ⟨i, hi⟩ := h.isOpen pg w ha.1 ha.2
      · exact ⟨.inl f, File.end?_eq_some.mpr ⟨hf, hpg, rfl⟩⟩
      · exact ⟨.inr i, hi⟩

omit [Fintype ι] [DecidableEq ι] in
theorem Pipes.of_each (hb : Blank s own) (h : Holders.Each (holding s own) s.due) : Pipes s own := by
  have hfile : ∀ {f pg}, (s.ftable f).type = .pipe → (s.ftable f).pipe = some pg →
      holding s own (.inl f) = some (pg, some (s.ftable f).writable) := fun hf hpg => File.end?_eq_some.mpr ⟨hf, hpg, rfl⟩
  have hpage : ∀ {f}, (s.ftable f).type = .pipe → ∃ pg, (s.ftable f).pipe = some pg := by
    intro f hf
    obtain ⟨⟨pg, w⟩, hend⟩ := Option.ne_none_iff_exists'.mp (hb.pipe f hf)
    obtain ⟨-, hpg, -⟩ := File.end?_eq_some.mp hend
    exact ⟨pg, hpg⟩
  refine ⟨hb.closed, hb.new, hb.one, fun f hf => ?_, fun f g hf hg hpg hw => ?_, fun pg w hu ho => ?_, fun pg hu h0 h1 => ?_,
    fun i pg w hi => ?_, fun i pg hi => due_none.mp (h.present (i := .inr i) hi), fun i j y hi hj => ?_⟩
  · obtain ⟨pg, hpg⟩ := hpage hf
    exact ⟨pg, hpg, h.present (hfile hf hpg)⟩
  · obtain ⟨pg, hpgf⟩ := hpage hf
    exact Sum.inl.inj (h.one (hfile hf hpgf) (hw ▸ hfile hg (hpg ▸ hpgf)))
  · obtain ⟨f | i, hi⟩ := h.held (a := (pg, some w)) ⟨hu, ho⟩
    · obtain ⟨hf, hpg, hw⟩ := File.end?_eq_some.mp hi
      exact .inl ⟨f, hf, hpg, (Option.some.inj hw).symm⟩
    · exact .inr ⟨i, hi⟩
  · obtain ⟨f | i, hi⟩ := h.held (due_none.mpr ⟨hu, h0, h1⟩)
    · obtain ⟨-, -, hw⟩ := File.end?_eq_some.mp hi
      cases hw
    · exact ⟨i, hi⟩
  · obtain ⟨hu, ho⟩ := h.present (i := .inr i) hi
    refine ⟨hu, ho, fun f hf hpg hw => ?_⟩
    have hsame := h.one (hfile hf hpg) (j := .inr i) (hw ▸ hi)
    cases hsame
  · exact Sum.inr.inj (h.one (i := .inr i) (j := .inr j) hi hj)

omit [Fintype ι] [DecidableEq ι] in
/-- Each end of a pipe that is open is a file or about to be closed, and each pipe without one is about to be
freed. -/
theorem pipes_iff : Pipes s own ↔ Blank s own ∧ Holders.Each (holding s own) s.due :=
  ⟨fun h => ⟨h.blank, h.each⟩, fun ⟨hb, h⟩ => .of_each hb h⟩

omit [Fintype ι] in
/-- A process has the files `x.new` to fill in, which are blank, and those of the others still are. -/
theorem Blank.step (h : Blank s own) (hclosed : ∀ f, (s'.ftable f).ref = 0 → (s'.ftable f).type = .none)
    (hpipe : ∀ f, (s'.ftable f).type = .pipe → (s'.ftable f).end? ≠ none)
    (hnew : ∀ f, f ∈ x.new → (s'.ftable f).type = .none ∧ ∀ i, i ≠ p → f ∉ (own i).new)
    (hothers : ∀ i f, i ≠ p → f ∈ (own i).new → (s'.ftable f).type = .none) : Blank s' (Function.update own p x) := by
  have hcases : ∀ i f, f ∈ (Function.update own p x i).new → i = p ∧ f ∈ x.new ∨ i ≠ p ∧ f ∈ (own i).new := by
    intro i f hf
    by_cases hi : i = p
    · subst hi
      rw [Function.update_self] at hf
      exact .inl ⟨rfl, hf⟩
    · rw [Function.update_of_ne hi] at hf
      exact .inr ⟨hi, hf⟩
  refine ⟨hclosed, fun i f hf => ?_, fun i j f hi hj => ?_, hpipe⟩
  · obtain ⟨-, hf⟩ | ⟨hi, hf⟩ := hcases i f hf
    · exact (hnew f hf).1
    · exact hothers i f hi hf
  · obtain ⟨hip, hfi⟩ | ⟨hip, hfi⟩ := hcases i f hi
    · obtain ⟨hjp, -⟩ | ⟨hjp, hfj⟩ := hcases j f hj
      · rw [hip, hjp]
      · exact absurd hfj ((hnew f hfi).2 j hjp)
    · obtain ⟨-, hfj⟩ | ⟨-, hfj⟩ := hcases j f hj
      · exact absurd hfi ((hnew f hfj).2 i hip)
      · exact h.one i j f hfi hfj

omit [Fintype ι] [DecidableEq ι] in
theorem Blank.others (h : Blank s own) {f : FileNo} (hf : f ∈ (own p).new) : ∀ i, i ≠ p → f ∉ (own i).new :=
  fun i hi hif => hi (h.one i p f hif hf)

end Holding

namespace Pipes
variable {s s' : World ι} {own : ι → Hold ι} {p : ι} {x : Hold ι}

omit [Fintype ι] in
/-- A step that leaves the pipes and the types of files alone. -/
theorem stay (h : Pipes s own) (hsame : ∀ f, (s'.ftable f).type = (s.ftable f).type ∧
      (s'.ftable f).pipe = (s.ftable f).pipe ∧ (s'.ftable f).writable = (s.ftable f).writable)
    (huse : ∀ pg, s'.use pg = .pipe ↔ s.use pg = .pipe) (hends : s'.ends = s.ends) (hclosing : x.closing = (own p).closing)
    (hclosed : ∀ f, (s'.ftable f).ref = 0 → (s.ftable f).ref = 0)
    (hnew : ∀ f, f ∈ x.new → f ∈ (own p).new ∨ (s.ftable f).type = .none ∧ ∀ i, f ∉ (own i).new) :
    Pipes s' (Function.update own p x) := by
  obtain ⟨hb, hh⟩ := pipes_iff.mp h
  have hend : ∀ f, (s'.ftable f).end? = (s.ftable f).end? := by
    intro f
    simp only [File.end?, hsame]
  have hholding : holding s' own = holding s own := by
    funext i
    cases i with
    | inl f => exact hend f
    | inr i => rfl
  refine pipes_iff.mpr ⟨hb.step (fun f hf => ?_) (fun f hf => ?_) (fun f hf => ?_) fun i f _ hf => ?_, ?_⟩
  · rw [(hsame f).1]
    exact hb.closed f (hclosed f hf)
  · rw [(hsame f).1] at hf
    rw [hend]
    exact hb.pipe f hf
  · rw [(hsame f).1]
    obtain hf | ⟨hf, hno⟩ := hnew f hf
    · exact ⟨hb.new p f hf, hb.others hf⟩
    · exact ⟨hf, fun i _ => hno i⟩
  · rw [(hsame f).1]
    exact hb.new i f hf
  · have hstays : Function.update (holding s own) (.inr p) (own p).closing = holding s own := Function.update_eq_self ..
    rw [holding_update, hholding, hclosing, hstays]
    refine hh.congr fun a => ?_
    obtain ⟨pg, w⟩ := a
    cases w <;> simp only [World.due, huse, hends]

omit [Fintype ι] in
/-- A file that is no pipe's is filled in, or the last reference of one goes. -/
theorem retype (h : Pipes s own) {f : FileNo} {y : File} (hy : y.type ≠ .pipe) (hzero : y.ref = 0 → y.type = .none)
    (hx : ∀ g, g ∈ x.new → g ∈ (own p).new ∧ (g ≠ f ∨ y.type = .none))
    (hothers : ∀ i, i ≠ p → f ∈ (own i).new → y.type = .none) (hclosing : (own p).closing = none)
    (hnone : (s.ftable f).type ≠ .pipe → x.closing = none)
    (hpipe : ∀ pg, (s.ftable f).type = .pipe → (s.ftable f).pipe = some pg → x.closing = some (pg, some (s.ftable f).writable)) :
    Pipes (s.setFile f y) (Function.update own p x) := by
  obtain ⟨hb, hh⟩ := pipes_iff.mp h
  have hsame : ∀ g, g ≠ f → (s.setFile f y).ftable g = s.ftable g := fun g hg => Function.update_of_ne hg ..
  have hself : (s.setFile f y).ftable f = y := Function.update_self ..
  -- the process closes the end that the file has been
  have hgiven : x.closing = holding s own (.inl f) := by
    show _ = (s.ftable f).end?
    by_cases hf : (s.ftable f).type = .pipe
    · obtain ⟨pg, hpg, -⟩ := h.pipe f hf
      rw [hpipe pg hf hpg, File.end?_eq_some.mpr ⟨hf, hpg, rfl⟩]
    · rw [hnone hf, File.end?_of_ne hf]
  have hblank : ∀ g, (g = f → y.type = .none) → (s.ftable g).type = .none → ((s.setFile f y).ftable g).type = .none := by
    intro g hgf hg
    by_cases he : g = f
    · rw [he, hself]
      exact hgf he
    · rw [hsame g he]
      exact hg
  refine pipes_iff.mpr ⟨hb.step (fun g hg => ?_) (fun g hg => ?_) (fun g hg => ?_) fun i g hi hg => ?_, ?_⟩
  · by_cases hgf : g = f
    · rw [hgf, hself] at hg ⊢
      exact hzero hg
    · rw [hsame g hgf] at hg ⊢
      exact hb.closed g hg
  · by_cases hgf : g = f
    · rw [hgf, hself] at hg
      exact absurd hg hy
    · rw [hsame g hgf] at hg ⊢
      exact hb.pipe g hg
  · obtain ⟨hg, hgf⟩ := hx g hg
    exact ⟨hblank g (fun he => hgf.resolve_left fun hne => hne he) (hb.new p g hg), hb.others hg⟩
  · exact hblank g (fun he => hothers i hi (he ▸ hg)) (hb.new i g hg)
  · rw [holding_update, holding_setFile, File.end?_of_ne hy, hgiven]
    exact hh.hand Sum.inr_ne_inl hclosing

omit [Fintype ι] [DecidableEq ι] in
theorem isOpen_shut (e : Ends) (w w' : Bool) : (e.shut w).isOpen w' = if w' = w then false else e.isOpen w' := by
  cases w <;> cases w' <;> rfl

omit [Fintype ι] [DecidableEq ι] in
theorem isOpen_shut_all (e : Ends) (w : Bool) : (∀ w', (e.shut w).isOpen w' = false) ↔ e.isOpen (!w) = false := by
  simp only [isOpen_shut, Bool.forall_bool]
  cases w <;> simp

omit [Fintype ι] in
/-- `pipeclose`: the pipe is to be freed once both ends are closed. -/
theorem shutEnd (h : Pipes s own) {pg : Page} {w : Bool} (hp : (own p).closing = some (pg, some w))
    (hnew : x.new = (own p).new)
    (hx : x.closing = if (s.ends pg).isOpen (!w) then none else some (pg, none)) :
    Pipes (s.shut pg w) (Function.update own p x) := by
  obtain ⟨hb, hh⟩ := pipes_iff.mp h
  obtain ⟨huse, hopen⟩ : s.due (pg, some w) := hh.present (i := .inr p) hp
  have hother : ∀ pg', pg' ≠ pg → (s.shut pg w).ends pg' = s.ends pg' := fun pg' hpg => Function.update_of_ne hpg ..
  have hself : (s.shut pg w).ends pg = (s.ends pg).shut w := Function.update_self ..
  have hclosing : ∀ a, x.closing = some a ↔ a = (pg, none) ∧ (s.ends pg).isOpen (!w) = false := by
    intro a
    rw [hx]
    cases (s.ends pg).isOpen (!w) <;> simp [eq_comm]
  refine pipes_iff.mpr ⟨hb.step hb.closed hb.pipe (fun f hf => ?_) fun i f _ hf => hb.new i f hf, ?_⟩
  · rw [hnew] at hf
    exact ⟨hb.new p f hf, hb.others hf⟩
  · rw [holding_update]
    refine Holders.Each.exchange hh (fun a ha hdue => ?_) fun a => ?_
    · -- the pipe had an open end
      obtain ⟨rfl, -⟩ := (hclosing a).mp ha
      rw [hdue.2 w] at hopen
      cases hopen
    · show (s.shut pg w).due a ↔ x.closing = some a ∨ s.due a ∧ (own p).closing ≠ some a
      rw [hclosing, hp]
      obtain ⟨pg', w'⟩ := a
      by_cases hpg : pg' = pg
      · subst hpg
        cases w' with
        | none =>
          show s.use pg' = .pipe ∧ (∀ w', ((s.shut pg' w).ends pg').isOpen w' = false) ↔ _ ∨ (s.use pg' = .pipe ∧ _) ∧ _
          rw [hself, isOpen_shut_all]
          simp only [huse, true_and]
          refine ⟨.inl, fun hor => hor.elim id fun hno => hno.1 (!w)⟩
        | some w' =>
          show s.use pg' = .pipe ∧ ((s.shut pg' w).ends pg').isOpen w' = true ↔ _ ∨ (s.use pg' = .pipe ∧ _) ∧ _
          rw [hself, isOpen_shut]
          by_cases hw : w' = w
          · simp [hw]
          · simp [hw, Ne.symm hw]
      · rw [due_congr s (s.shut pg w) rfl (hother pg' hpg)]
        simp [hpg, Ne.symm hpg]

omit [Fintype ι] in
/-- The page of a pipe without ends is freed. -/
theorem free (h : Pipes s own) {pg : Page} (hp : (own p).closing = some (pg, none)) (hnew : x.new = (own p).new)
    (hx : x.closing = none) : Pipes (s.setUse pg .free) (Function.update own p x) := by
  obtain ⟨hb, hh⟩ := pipes_iff.mp h
  obtain ⟨huse, hshut⟩ : s.due (pg, none) := hh.present (i := .inr p) hp
  have hother : ∀ pg', pg' ≠ pg → (s.setUse pg .free).use pg' = s.use pg' := fun pg' hpg => Function.update_of_ne hpg ..
  have hself : (s.setUse pg .free).use pg = .free := Function.update_self ..
  refine pipes_iff.mpr ⟨hb.step hb.closed hb.pipe (fun f hf => ?_) fun i f _ hf => hb.new i f hf, ?_⟩
  · rw [hnew] at hf
    exact ⟨hb.new p f hf, hb.others hf⟩
  · rw [holding_update, hx]
    refine hh.exchange (fun _ hb => by cases hb) fun a => ?_
    show (s.setUse pg .free).due a ↔ none = some a ∨ s.due a ∧ (own p).closing ≠ some a
    rw [hp]
    obtain ⟨pg', w'⟩ := a
    by_cases hpg : pg' = pg
    · subst hpg
      cases w' with
      | none => simp [World.due, hself]
      | some w' => simp [World.due, hself, hshut]
    · rw [due_congr s (s.setUse pg .free) (hother pg' hpg) rfl]
      simp [Ne.symm hpg]

omit [Fintype ι] [DecidableEq ι] in
/-- What is due when a pipe has been made. -/
theorem due_pipeinit {pg : Page} (hfree : s.use pg = .free) (f₀ f₁ : FileNo) (a : Page × Option Bool) :
    (s.pipeinit pg f₀ f₁).due a ↔ a = (pg, some true) ∨ a = (pg, some false) ∨ s.due a := by
  have huse : (s.pipeinit pg f₀ f₁).use = Function.update s.use pg .pipe := by
    rw [World.pipeinit, if_pos hfree]
    rfl
  have hends : (s.pipeinit pg f₀ f₁).ends = Function.update s.ends pg ⟨true, true⟩ := by
    rw [World.pipeinit, if_pos hfree]
    rfl
  have hopen : ∀ w, (⟨true, true⟩ : Ends).isOpen w = true := by decide
  obtain ⟨pg', w⟩ := a
  by_cases hpg : pg' = pg
  · subst hpg
    cases w with
    | none => simp [World.due, huse, hends, hopen, hfree]
    | some w => cases w <;> simp [World.due, huse, hends, hopen]
  · rw [due_congr s _ (by rw [huse, Function.update_of_ne hpg]) (by rw [hends, Function.update_of_ne hpg])]
    simp [hpg]

omit [Fintype ι] in
/-- Two files are the ends of a new pipe. -/
theorem holding_pipeinit {pg : Page} (hfree : s.use pg = .free) (f₀ f₁ : FileNo) : holding (s.pipeinit pg f₀ f₁) own =
    Function.update (Function.update (holding s own) (.inl f₀) (some (pg, some false))) (.inl f₁) (some (pg, some true)) := by
  have hstart : holding { s.setUse pg .pipe with ends := Function.update s.ends pg ⟨true, true⟩ } own = holding s own := by
    funext i
    cases i <;> rfl
  simp only [World.pipeinit, if_pos hfree]
  rw [holding_setFile, holding_setFile, hstart]
  rfl

omit [Fintype ι] in
/-- A pipe is made, with two new files. -/
theorem init (h : Pipes s own) {pg : Page} (hfree : s.use pg = .free) {f₀ f₁ : FileNo} (hne : f₀ ≠ f₁)
    (h₀ : f₀ ∈ (own p).new) (h₁ : f₁ ∈ (own p).new) (hr₀ : (s.ftable f₀).ref ≠ 0) (hr₁ : (s.ftable f₁).ref ≠ 0)
    (hnew : x.new = []) (hclosing : x.closing = (own p).closing) :
    Pipes (s.pipeinit pg f₀ f₁) (Function.update own p x) := by
  obtain ⟨hb, hh⟩ := pipes_iff.mp h
  have hftable : (s.pipeinit pg f₀ f₁).ftable = Function.update (Function.update s.ftable f₀
        { s.ftable f₀ with type := .pipe, readable := true, writable := false, pipe := some pg }) f₁
        { s.ftable f₁ with type := .pipe, readable := false, writable := true, pipe := some pg } := by
    simp only [World.pipeinit, if_pos hfree, World.setFile, World.setUse, Function.update_of_ne hne.symm]
  have hfile₀ : (s.pipeinit pg f₀ f₁).ftable f₀ =
      { s.ftable f₀ with type := .pipe, readable := true, writable := false, pipe := some pg } := by
    rw [hftable, Function.update_of_ne hne, Function.update_self]
  have hfile₁ : (s.pipeinit pg f₀ f₁).ftable f₁ =
      { s.ftable f₁ with type := .pipe, readable := false, writable := true, pipe := some pg } := by
    rw [hftable, Function.update_self]
  have hother : ∀ f, f ≠ f₀ → f ≠ f₁ → (s.pipeinit pg f₀ f₁).ftable f = s.ftable f := by
    intro f hf hf'
    rw [hftable, Function.update_of_ne hf', Function.update_of_ne hf]
  refine pipes_iff.mpr ⟨hb.step (fun f hf => ?_) (fun f hf => ?_) (fun f hf => ?_) fun i f hi hf => ?_, ?_⟩
  · by_cases hf₀ : f = f₀
    · rw [hf₀, hfile₀] at hf
      exact absurd hf hr₀
    · by_cases hf₁ : f = f₁
      · rw [hf₁, hfile₁] at hf
        exact absurd hf hr₁
      · rw [hother f hf₀ hf₁] at hf ⊢
        exact hb.closed f hf
  · by_cases hf₀ : f = f₀
    · rw [hf₀, hfile₀]
      exact Option.some_ne_none (pg, some false)
    · by_cases hf₁ : f = f₁
      · rw [hf₁, hfile₁]
        exact Option.some_ne_none (pg, some true)
      · rw [hother f hf₀ hf₁] at hf ⊢
        exact hb.pipe f hf
  · rw [hnew] at hf
    cases hf
  · rw [hother f (fun he => hb.others h₀ i hi (he ▸ hf)) fun he => hb.others h₁ i hi (he ▸ hf)]
    exact hb.new i f hf
  · have hstays : Function.update (holding (s.pipeinit pg f₀ f₁) own) (.inr p) (own p).closing =
        holding (s.pipeinit pg f₀ f₁) own := Function.update_eq_self ..
    rw [holding_update, hclosing, hstays, holding_pipeinit hfree]
    -- one end after the other; a page that is free has none
    have hnone : ∀ {f}, f ∈ (own p).new → holding s own (.inl f) = none := fun hf =>
      File.end?_of_ne (by rw [hb.new p _ hf]; decide)
    have hno : ∀ w, ¬ s.due (pg, some w) := by
      rintro w ⟨hu, -⟩
      rw [hfree] at hu
      cases hu
    have hread : Holders.Each (Function.update (holding s own) (.inl f₀) (some (pg, some false)))
        fun a => a = (pg, some false) ∨ s.due a := by
      refine hh.exchange (fun a ha hdue => ?_) fun a => ?_
      · cases ha
        exact absurd hdue (hno false)
      · simp [hnone h₀, eq_comm]
    refine hread.exchange (fun a ha hdue => ?_) fun a => ?_
    · cases ha
      exact absurd hdue (by simp [hno true])
    · rw [due_pipeinit hfree, Function.update_of_ne fun he => hne (Sum.inl.inj he).symm, hnone h₁]
      simp [eq_comm]

end Pipes

/-! ### Sections -/

/-- What `fileclose` leaves to be closed. -/
def World.last (s : World ι) (f : FileNo) : Option (Page × Option Bool) :=
  if (s.ftable f).ref - 1 > 0 then none
  else if (s.ftable f).type = .pipe then (s.ftable f).pipe.map fun pg => (pg, some (s.ftable f).writable)
  else none

namespace Kept
variable {s : World ι} {own : ι → Hold ι} {p : ι} {f : FileNo}

omit [DecidableEq ι] in
theorem ofile_eq (h : Kept s own) {tb : Table} (hp : (own p).table = some tb) : s.ofile p = tb :=
  (h.procs.table p tb hp).1

omit [DecidableEq ι] in
theorem unused (h : Kept s own) (hf : (s.ftable f).ref = 0) (i : ι) : f ∉ (own i).new := by
  intro hn
  have := h.refs.pos (h.refs.new i f hn)
  omega

theorem filealloc (h : Kept s own) (hp : (own p).table ≠ none) (hf : s.freeFile = some f) :
    Kept s.filealloc (Function.update own p { own p with owed := f :: (own p).owed, new := f :: (own p).new }) := by
  have hzero : (s.ftable f).ref = 0 := by simpa using List.find?_some hf
  have hs : s.filealloc = s.setRef f 1 := by rw [World.filealloc, hf]
  have href : ∀ g, ((s.setRef f 1).ftable g).ref = (s.ftable g).ref + if g = f then 1 else 0 := by
    intro g
    show (Function.update s.ftable f _ g).ref = _
    by_cases hg : g = f
    · rw [hg, Function.update_self, hzero, if_pos rfl]
    · rw [Function.update_of_ne hg, if_neg hg]
      rfl
  have htype : ∀ g, ((s.setRef f 1).ftable g).type = (s.ftable g).type ∧ ((s.setRef f 1).ftable g).pipe = (s.ftable g).pipe ∧
      ((s.setRef f 1).ftable g).writable = (s.ftable g).writable := by
    intro g
    show (Function.update s.ftable f _ g).type = _ ∧ (Function.update s.ftable f _ g).pipe = _ ∧
      (Function.update s.ftable f _ g).writable = _
    by_cases hg : g = f
    · rw [hg, Function.update_self]
      exact ⟨rfl, rfl, rfl⟩
    · rw [Function.update_of_ne hg]
      exact ⟨rfl, rfl, rfl⟩
  rw [hs]
  refine ⟨h.refs.stay rfl (fun g => ?_) (h.refs.slots p) (fun g hg => ?_), h.pipes.stay htype (fun _ => Iff.rfl) rfl rfl
    (fun g hg => ?_) (fun g hg => ?_), h.procs.stay rfl rfl rfl rfl rfl hp⟩
  · rw [href, List.count_cons]
    by_cases hg : g = f
    · subst hg
      simp only [beq_self_eq_true, if_true]
      omega
    · have hgf : (f == g) = false := beq_eq_false_iff_ne.mpr (Ne.symm hg)
      simp only [hgf, if_neg hg]
      simp
  · rw [List.count_cons]
    rcases List.mem_cons.mp hg with rfl | hg
    · have := h.refs.slots p g
      simp only [beq_self_eq_true, if_true]
      omega
    · exact (h.refs.new p g hg).trans_le (by omega)
  · rw [href] at hg
    omega
  · rcases List.mem_cons.mp hg with rfl | hg
    · exact .inr ⟨h.pipes.closed g hzero, h.unused hzero⟩
    · exact .inl hg

theorem filedup (h : Kept s own) (hp : (own p).table ≠ none) (owed extra : List FileNo)
    (hpos : 0 < (s.ftable f).ref)
    (hbal : ∀ g, owed.count g + (own p).extra.count g = (own p).owed.count g + extra.count g + if g = f then 1 else 0)
    (hslots : ∀ g, extra.count g ≤ (s.ofile p).count g)
    (hnew : ∀ g, g ∈ (own p).new → extra.count g < (s.ofile p).count g + owed.count g) :
    Kept (s.filedup f) (Function.update own p { own p with owed, extra }) := by
  have hs : s.filedup f = s.setRef f ((s.ftable f).ref + 1) := if_neg (by omega)
  have href : ∀ g, ((s.filedup f).ftable g).ref = (s.ftable g).ref + if g = f then 1 else 0 := by
    intro g
    rw [hs]
    show (Function.update s.ftable f _ g).ref = _
    by_cases hg : g = f
    · rw [hg, Function.update_self, if_pos rfl]
    · rw [Function.update_of_ne hg, if_neg hg]
      rfl
  have htype : ∀ g, ((s.filedup f).ftable g).type = (s.ftable g).type ∧ ((s.filedup f).ftable g).pipe = (s.ftable g).pipe ∧
      ((s.filedup f).ftable g).writable = (s.ftable g).writable := by
    intro g
    rw [hs]
    show (Function.update s.ftable f _ g).type = _ ∧ (Function.update s.ftable f _ g).pipe = _ ∧
      (Function.update s.ftable f _ g).writable = _
    by_cases hg : g = f
    · rw [hg, Function.update_self]
      exact ⟨rfl, rfl, rfl⟩
    · rw [Function.update_of_ne hg]
      exact ⟨rfl, rfl, rfl⟩
  have hofile : (s.filedup f).ofile = s.ofile := by rw [hs]; rfl
  refine ⟨h.refs.stay hofile (fun g => ?_) hslots hnew,
    h.pipes.stay htype (fun pg => by rw [hs]; rfl) (by rw [hs]; rfl) rfl (fun g hg => ?_) (fun g hg => .inl hg),
    h.procs.stay hofile (by rw [hs]; rfl) (by rw [hs]; rfl) rfl rfl hp⟩
  · rw [href]
    have := hbal g
    show _ + extra.count g + _ = _ + _ + owed.count g
    omega
  · rw [href] at hg
    omega

theorem drop (h : Kept s own) (hp : (own p).table ≠ none) (owed extra new : List FileNo) (hpos : 0 < (s.ftable f).ref)
    (hbal : ∀ g, owed.count g + (own p).extra.count g + (if g = f then 1 else 0) = (own p).owed.count g + extra.count g)
    (hslots : ∀ g, extra.count g ≤ (s.ofile p).count g) (hsub : ∀ g, g ∈ new → g ∈ (own p).new)
    (hnew : ∀ g, g ∈ new → extra.count g < (s.ofile p).count g + owed.count g) (hclosing : (own p).closing = none) :
    Kept (s.drop f) (Function.update own p { own p with owed, extra, new, closing := World.last s f }) := by
  have hofile : (s.drop f).ofile = s.ofile ∧ (s.drop f).life = s.life ∧ (s.drop f).plock = s.plock := by
    unfold World.drop
    split_ifs <;> exact ⟨rfl, rfl, rfl⟩
  have href : ∀ g, ((s.drop f).ftable g).ref + (if g = f then 1 else 0) = (s.ftable g).ref := by
    intro g
    unfold World.drop
    rw [if_neg (by omega)]
    by_cases hg : g = f
    · rw [hg, if_pos rfl]
      split_ifs with hlast
      · show (Function.update s.ftable f _ f).ref + 1 = _
        rw [Function.update_self]
        show (s.ftable f).ref - 1 + 1 = _
        omega
      · show (Function.update s.ftable f _ f).ref + 1 = _
        rw [Function.update_self]
        show 0 + 1 = _
        omega
    · rw [if_neg hg]
      split_ifs with hlast
      · show (Function.update s.ftable f _ g).ref + 0 = _
        rw [Function.update_of_ne hg]
        rfl
      · show (Function.update s.ftable f _ g).ref + 0 = _
        rw [Function.update_of_ne hg]
        rfl
  refine ⟨h.refs.stay hofile.1 (fun g => ?_) hslots hnew, ?_,
    h.procs.stay hofile.1 hofile.2.1 hofile.2.2 rfl rfl hp⟩
  · have := hbal g
    have := href g
    show _ + extra.count g + _ = _ + _ + owed.count g
    omega
  · by_cases hlast : (s.ftable f).ref - 1 > 0
    · have hs : s.drop f = s.setRef f ((s.ftable f).ref - 1) := by rw [World.drop, if_neg (by omega), if_pos hlast]
      have hnone : World.last s f = none := if_pos hlast
      rw [hnone]
      refine h.pipes.stay (fun g => ?_) (fun pg => by rw [hs]; rfl) (by rw [hs]; rfl) hclosing.symm (fun g hg => ?_)
        (fun g hg => .inl (hsub g hg))
      · rw [hs]
        show (Function.update s.ftable f _ g).type = _ ∧ (Function.update s.ftable f _ g).pipe = _ ∧
          (Function.update s.ftable f _ g).writable = _
        by_cases hg : g = f
        · rw [hg, Function.update_self]
          exact ⟨rfl, rfl, rfl⟩
        · rw [Function.update_of_ne hg]
          exact ⟨rfl, rfl, rfl⟩
      · have := href g
        by_cases hgf : g = f
        · rw [if_pos hgf] at this
          subst hgf
          omega
        · rw [if_neg hgf] at this
          omega
    · have hs : s.drop f = s.setFile f { s.ftable f with ref := 0, type := .none } := by
        rw [World.drop, if_neg (by omega), if_neg hlast]
      rw [hs]
      refine h.pipes.retype (fun ht => nomatch ht) (fun _ => rfl) (fun g hg => ⟨hsub g hg, .inr rfl⟩) (fun _ _ _ => rfl)
        hclosing (fun ht => ?_) (fun pg ht hpg => ?_)
      · show World.last s f = none
        rw [World.last, if_neg hlast, if_neg ht]
      · show World.last s f = _
        rw [World.last, if_neg hlast, if_pos ht, hpg]
        rfl

theorem setFd (h : Kept s own) {tb : Table} (hp : (own p).table = some tb) (fd : Fd) (b : Option FileNo)
    (owed extra : List FileNo)
    (hbal : ∀ g, extra.count g + tb.count g + (own p).owed.count g =
      (own p).extra.count g + Table.count (Function.update tb fd b) g + owed.count g)
    (hslots : ∀ g, extra.count g ≤ Table.count (Function.update tb fd b) g)
    (hnew : ∀ g, g ∈ (own p).new → extra.count g < Table.count (Function.update tb fd b) g + owed.count g) :
    Kept (s.setFd p fd b)
      (Function.update own p { own p with table := some (Function.update tb fd b), owed, extra }) := by
  have htb := h.ofile_eq hp
  have hself : (s.setFd p fd b).ofile p = Function.update tb fd b := by
    show Function.update s.ofile p _ p = _
    rw [Function.update_self, htb]
  refine ⟨h.refs.step p (Function.update tb fd b) (by rw [← htb]; rfl) (fun g => ?_) (fun g => ?_)
    (fun hn => absurd rfl hn) (fun g hg => ?_), h.pipes.stay (fun _ => ⟨rfl, rfl, rfl⟩) (fun _ => Iff.rfl) rfl rfl
    (fun _ hg => hg) (fun g hg => .inl hg), h.procs.setFd hp rfl rfl⟩
  · rw [htb]
    have := hbal g
    show (s.ftable g).ref + extra.count g + _ + _ = _ + _ + _ + owed.count g
    omega
  · rw [hself]
    exact hslots g
  · rw [hself]
    exact hnew g hg

theorem shutEnd (h : Kept s own) (hp : (own p).table ≠ none) {pg : Page} {w : Bool}
    (hc : (own p).closing = some (pg, some w)) :
    Kept (s.shut pg w) (Function.update own p
      { own p with closing := if (s.ends pg).isOpen (!w) then none else some (pg, none) }) :=
  ⟨h.refs.stay rfl (fun _ => rfl) (h.refs.slots p) (h.refs.new p), h.pipes.shutEnd hc rfl rfl,
    h.procs.stay rfl rfl rfl rfl rfl hp⟩

theorem free (h : Kept s own) (hp : (own p).table ≠ none) {pg : Page} (hc : (own p).closing = some (pg, none)) :
    Kept (s.setUse pg .free) (Function.update own p { own p with closing := none }) :=
  ⟨h.refs.stay rfl (fun _ => rfl) (h.refs.slots p) (h.refs.new p), h.pipes.free hc rfl rfl,
    h.procs.stay rfl rfl rfl rfl rfl hp⟩

theorem init (h : Kept s own) (hp : (own p).table ≠ none) {pg : Page} (hfree : s.use pg = .free) {f₀ f₁ : FileNo}
    (hne : f₀ ≠ f₁) (h₀ : f₀ ∈ (own p).new) (h₁ : f₁ ∈ (own p).new) :
    Kept (s.pipeinit pg f₀ f₁) (Function.update own p { own p with new := [] }) := by
  have hr₀ := h.refs.pos (h.refs.new p f₀ h₀)
  have hr₁ := h.refs.pos (h.refs.new p f₁ h₁)
  have hrest : (s.pipeinit pg f₀ f₁).ofile = s.ofile ∧ (s.pipeinit pg f₀ f₁).life = s.life ∧
      (s.pipeinit pg f₀ f₁).plock = s.plock := by
    unfold World.pipeinit
    rw [if_pos hfree]
    exact ⟨rfl, rfl, rfl⟩
  have href : ∀ g, ((s.pipeinit pg f₀ f₁).ftable g).ref = (s.ftable g).ref := by
    intro g
    unfold World.pipeinit
    rw [if_pos hfree]
    show (Function.update (Function.update s.ftable f₀ _) f₁ _ g).ref = _
    by_cases hg : g = f₁
    · rw [hg, Function.update_self]
      show (Function.update s.ftable f₀ _ f₁).ref = _
      rw [Function.update_of_ne hne.symm]
    · rw [Function.update_of_ne hg]
      by_cases hg' : g = f₀
      · rw [hg', Function.update_self]
        rfl
      · rw [Function.update_of_ne hg']
  exact ⟨h.refs.stay hrest.1 (fun g => by rw [href]) (h.refs.slots p) (fun _ hg => nomatch hg),
    h.pipes.init hfree hne h₀ h₁ (by omega) (by omega) rfl rfl, h.procs.stay hrest.1 hrest.2.1 hrest.2.2 rfl rfl hp⟩

theorem fill (h : Kept s own) (hp : (own p).table ≠ none) (hf : f ∈ (own p).new) (hc : (own p).closing = none)
    {x : File → File} (hx : ∀ y, (x y).ref = y.ref ∧ (x y).type ≠ .pipe) :
    Kept (s.setFile f (x (s.ftable f))) (Function.update own p { own p with new := [] }) := by
  have hpos := h.refs.pos (h.refs.new p f hf)
  have hnone := h.pipes.new p f hf
  refine ⟨h.refs.stay rfl (fun g => ?_) (h.refs.slots p) (fun _ hg => nomatch hg),
    h.pipes.retype (hx _).2 (fun hz => ?_) (fun _ hg => nomatch hg) (fun i hi hn => absurd (h.pipes.one i p f hn hf) hi)
      hc (fun _ => hc) (fun pg ht => ?_), h.procs.stay rfl rfl rfl rfl rfl hp⟩
  · show (Function.update s.ftable f _ g).ref + _ + _ = _
    by_cases hg : g = f
    · rw [hg, Function.update_self, (hx _).1]
    · rw [Function.update_of_ne hg]
  · rw [(hx _).1] at hz
    omega
  · rw [hnone] at ht
    cases ht

omit [DecidableEq ι] in
/-- The rest of the kernel takes or gives back a page. -/
theorem page (h : Kept s own) {use : Page → Use} (huse : ∀ pg, use pg = .pipe ↔ s.use pg = .pipe) :
    Kept { s with use } own := by
  have hp := h.pipes
  refine ⟨⟨h.refs.refs, h.refs.slots, h.refs.new⟩, ⟨hp.closed, hp.new, hp.one, fun f hf => ?_, hp.ends,
    fun pg w hu ho => hp.isOpen pg w ((huse pg).mp hu) ho, fun pg hu => hp.shut pg ((huse pg).mp hu), fun i pg w hi => ?_,
    fun i pg hi => ?_, hp.alone⟩, ⟨h.procs.table, h.procs.idle, h.procs.child, h.procs.plock, h.procs.vacant⟩⟩
  · obtain ⟨pg, hpg, hu, ho⟩ := hp.pipe f hf
    exact ⟨pg, hpg, (huse pg).mpr hu, ho⟩
  · obtain ⟨hu, hrest⟩ := hp.closing i pg w hi
    exact ⟨(huse pg).mpr hu, hrest⟩
  · obtain ⟨hu, hrest⟩ := hp.freeing i pg hi
    exact ⟨(huse pg).mpr hu, hrest⟩

end Kept

end Farron.Files
