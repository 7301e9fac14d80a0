import Farron.Memory.Procs
import Farron.Memory.Resize
import Mathlib.Algebra.BigOperators.Group.Finset.Basic

/-! The memory of all processes.

An `Image` names the pages that a process has: the roots of its two page tables, its
trapframe, its kernel stack and its user pages. `Held` says that each slot of the process table
has an image or nothing, and that the images and the free list are all pages. A function
works on the image of one slot and leaves the others among the rest (`Held.update`). -/
namespace Farron.Memory
open Resumption Radix

structure Image where
  upt : Page
  kpt : Page
  tf : Page
  stack : Page
  us : List Pte

/-- The pages that a process has for itself, besides its page tables. -/
def Image.pages (im : Image) : Multiset (Page × Use) :=
  userPages im.us + ((im.stack, .stack) ::ₘ {(im.tf, .trapframe)})

def Image.owned (im : Image) (m : Ram) : Multiset (Page × Use) :=
  tabs (pagesOf m Finset.univ im.upt) + (tabs (pagesOf m procIdx im.kpt) + im.pages)

/-- What a slot of the process table owns. -/
def owned (m : Ram) (o : Option Image) : Multiset (Page × Use) := o.elim 0 fun im => im.owned m

@[simp] theorem owned_none (m : Ram) : owned m none = 0 := rfl
@[simp] theorem owned_some (m : Ram) (im : Image) : owned m (some im) = im.owned m := rfl

variable {ι φ ε : Type} [DecidableEq ι] {board : Board} {m₀ m m' m'' : Ram} {R : Multiset (Page × Use)}

/-- The page tables are those of the image. -/
structure Fit (board : Board) (m₀ m : Ram) (im : Image) : Prop where
  user : Table Finset.univ (usrMap board im.tf im.us) m im.upt
  kern : Table procIdx (kernMap (some im.stack) im.us) m im.kpt
  row : ∀ j, j ∉ procIdx → m.heap im.kpt j = m₀.heap board.kernelPagetable j

/-- A process has the image. -/
structure Shows (x : Proc ι ε) (im : Image) : Prop where
  pagetable : x.pagetable = some im.upt
  kpagetable : x.kpagetable = some im.kpt
  trapframe : x.trapframe = some im.tf
  size : npages x.sz = im.us.length
  flags : ∀ (v : Nat) (e : Pte), im.us[v]? = some e → e.flags = if x.guard = some v then 15 else 31

/-- A slot without memory. -/
structure Vacant (x : Proc ι ε) : Prop where
  pagetable : x.pagetable = none
  kpagetable : x.kpagetable = none
  trapframe : x.trapframe = none
  size : x.sz = 0

omit [DecidableEq ι] in
theorem Shows.userFlags {x : Proc ι ε} {im : Image} (h : Shows x im) {e : Pte} (he : e ∈ im.us) : UserFlags e := by
  obtain ⟨v, hv⟩ := List.mem_iff_getElem?.mp he
  have hf := h.flags v e hv
  by_cases hg : x.guard = some v
  · rw [if_pos hg] at hf
    exact .inr hf
  · rw [if_neg hg] at hf
    exact .inl hf

theorem Fit.same {im : Image} (h : Fit board m₀ m im) (hs : Same (im.owned m) m m') :
    Fit board m₀ m' im ∧ im.owned m' = im.owned m := by
  have hu := hs.left
  have hk := hs.right.left
  refine ⟨⟨h.user.same hu, h.kern.same hk, fun j hj => ?_⟩, ?_⟩
  · rw [← h.row j hj, hk.tabs_heap (root_mem_pagesOf m procIdx im.kpt)]
  · unfold Image.owned
    rw [hu.pagesOf, hk.pagesOf]

variable [Fintype ι]

/-- What the other slots own. -/
def rest (m : Ram) (T : ι → Option Image) (p : ι) : Multiset (Page × Use) := ∑ q ∈ Finset.univ.erase p, owned m (T q)

theorem sum_rest (m : Ram) (T : ι → Option Image) (p : ι) : ∑ q, owned m (T q) = owned m (T p) + rest m T p := by
  unfold rest
  exact (Finset.add_sum_erase _ (fun q => owned m (T q)) (Finset.mem_univ p)).symm

theorem rest_update (m : Ram) (T : ι → Option Image) (p : ι) (o : Option Image) :
    rest m (Function.update T p o) p = rest m T p := by
  unfold rest
  apply Finset.sum_congr rfl
  intro q hq
  rw [Function.update_of_ne (Finset.ne_of_mem_erase hq)]

theorem owned_le_rest (m : Ram) (T : ι → Option Image) {p q : ι} (h : q ≠ p) : owned m (T q) ≤ rest m T p := by
  unfold rest
  rw [← Finset.add_sum_erase _ _ (Finset.mem_erase.mpr ⟨h, Finset.mem_univ q⟩)]
  exact Multiset.le_add_right _ _

/-- Every slot of the process table is as `T` says. -/
structure Held (board : Board) (m₀ : Ram) (s : Sys ι φ ε) (T : ι → Option Image) : Prop where
  shows : ∀ p im, T p = some im → Shows (s.procs p) im ∧ Fit board m₀ s.ram im
  vacant : ∀ p, T p = none → Vacant (s.procs p)
  books : Books board m₀ (∑ p, owned s.ram (T p)) s.ram

namespace Held
variable {s s' : Sys ι φ ε} {T : ι → Option Image} {p : ι}

theorem split (h : Held board m₀ s T) (p : ι) : Books board m₀ (owned s.ram (T p) + rest s.ram T p) s.ram := by
  rw [← sum_rest]
  exact h.books

/-- What the other slots own, after a step that leaves it alone. -/
theorem rest_eq (h : Held board m₀ s T) (hs : Same (rest s.ram T p) s.ram m') : rest m' T p = rest s.ram T p := by
  have hkey : ∀ q ∈ Finset.univ.erase p, owned m' (T q) = owned s.ram (T q) := by
    intro q hq
    have hle := owned_le_rest s.ram T (Finset.ne_of_mem_erase hq)
    cases hT : T q with
    | none => rw [owned_none, owned_none]
    | some im =>
      rw [hT, owned_some] at hle
      rw [owned_some, owned_some]
      exact ((h.shows q im hT).2.same (hs.mono hle)).2
  exact Finset.sum_congr rfl hkey

/-- A step on the image of one slot. -/
theorem update (h : Held board m₀ s T) {o : Option Image} (hprocs : ∀ q, q ≠ p → s'.procs q = s.procs q)
    (hs : Same (rest s.ram T p) s.ram s'.ram)
    (hshows : ∀ im, o = some im → Shows (s'.procs p) im ∧ Fit board m₀ s'.ram im)
    (hvacant : o = none → Vacant (s'.procs p))
    (hb : Books board m₀ (owned s'.ram o + rest s.ram T p) s'.ram) : Held board m₀ s' (Function.update T p o) := by
  refine ⟨fun q im hq => ?_, fun q hq => ?_, ?_⟩
  · by_cases hqp : q = p
    · subst hqp
      rw [Function.update_self] at hq
      exact hshows im hq
    · rw [Function.update_of_ne hqp] at hq
      obtain ⟨hsh, hfit⟩ := h.shows q im hq
      have hle := owned_le_rest s.ram T hqp
      rw [hq, owned_some] at hle
      rw [hprocs q hqp]
      exact ⟨hsh, (hfit.same (hs.mono hle)).1⟩
  · by_cases hqp : q = p
    · subst hqp
      rw [Function.update_self] at hq
      exact hvacant hq
    · rw [Function.update_of_ne hqp] at hq
      rw [hprocs q hqp]
      exact h.vacant q hq
  · rw [sum_rest s'.ram _ p, Function.update_self, rest_update, h.rest_eq hs]
    exact hb

omit [DecidableEq ι] in
/-- Only fields that say nothing about memory change. -/
theorem fields (h : Held board m₀ s T) (hram : s'.ram = s.ram)
    (hprocs : ∀ q, (s'.procs q).pagetable = (s.procs q).pagetable ∧ (s'.procs q).kpagetable = (s.procs q).kpagetable ∧
      (s'.procs q).trapframe = (s.procs q).trapframe ∧ (s'.procs q).sz = (s.procs q).sz ∧
      ((T q).isSome → (s'.procs q).guard = (s.procs q).guard)) : Held board m₀ s' T := by
  refine ⟨fun q im hq => ?_, fun q hq => ?_, ?_⟩
  · obtain ⟨hsh, hfit⟩ := h.shows q im hq
    obtain ⟨h1, h2, h3, h4, h5⟩ := hprocs q
    rw [hram]
    refine ⟨⟨h1.trans hsh.pagetable, h2.trans hsh.kpagetable, h3.trans hsh.trapframe, ?_, ?_⟩, hfit⟩
    · rw [h4]
      exact hsh.size
    · rw [h5 (by rw [hq]; rfl)]
      exact hsh.flags
  · have hv := h.vacant q hq
    obtain ⟨h1, h2, h3, h4, -⟩ := hprocs q
    exact ⟨h1.trans hv.pagetable, h2.trans hv.kpagetable, h3.trans hv.trapframe, h4.trans hv.size⟩
  · rw [hram]
    exact h.books

/-- The image of a slot, with its two page tables apart. -/
theorem image (h : Held board m₀ s T) {im : Image} (hp : T p = some im) :
    Shows (s.procs p) im ∧ Fit board m₀ s.ram im ∧
      Books board m₀ (tabs (pagesOf s.ram Finset.univ im.upt) + (tabs (pagesOf s.ram procIdx im.kpt) +
        (userPages im.us + ((im.stack, .stack) ::ₘ (im.tf, .trapframe) ::ₘ rest s.ram T p)))) s.ram := by
  have hb := h.split p
  rw [hp, owned_some] at hb
  refine ⟨(h.shows p im hp).1, (h.shows p im hp).2, hb.congr ?_⟩
  unfold Image.owned Image.pages
  rw [add_assoc, add_assoc, add_assoc, Multiset.cons_add, Multiset.singleton_add]

end Held

/-! ### Programs on memory -/

/-- What is shown of every section. -/
abbrev SysSound (board : Board) (l : Label) (s : Sys ι φ ε) : Prop := Sound board l s.ram

/-- What a program comes to that starts among processes. -/
abbrev Comes {α : Type} (board : Board) (E : Stop → Prop) (c : Code ι φ ε α) (s : Sys ι φ ε) (Q : α → Sys ι φ ε → Prop) : Prop :=
  c.Ends (SysSound board) E s Q

section Comes
variable {α β : Type} {E : Stop → Prop} {s : Sys ι φ ε}

omit [DecidableEq ι] [Fintype ι] in
/-- A program on memory, and what follows it. -/
theorem comes_vm {c : Vm α} {k : α → Code ι φ ε β} {Q : α → Ram → Prop} {Q' : β → Sys ι φ ε → Prop}
    (h : c.Ends (Sound board) E s.ram Q) (hk : ∀ a m', Q a m' → Comes board E (k a) { s with ram := m' } Q') :
    Comes board E (vm c >>= k) s Q' := by
  have hget : ∀ (t : Sys ι φ ε) (m : Ram), ({ t with ram := m } : Sys ι φ ε).ram = m := fun _ _ => rfl
  have hz : (vm c : Code ι φ ε α).Ends (SysSound board) E { s with ram := s.ram } fun a s' =>
      ∃ m', s' = { s with ram := m' } ∧ Q a m' := by
    apply Prog.Ends.zoom hget (fun _ _ _ => rfl) s
    exact h
  apply hz.bind
  intro a s' hs'
  obtain ⟨m', rfl, hQ⟩ := hs'
  exact hk a m' hQ

omit [DecidableEq ι] [Fintype ι] in
theorem comes_look {k : Sys ι φ ε → Code ι φ ε β} {Q : β → Sys ι φ ε → Prop} (hk : Comes board E (k s) s Q) :
    Comes board E (Prog.look .plain >>= k) s Q := Prog.Ends.look trivial hk

omit [Fintype ι] in
theorem comes_setProc {p : ι} {f : Proc ι ε → Proc ι ε} {k : Unit → Code ι φ ε β} {Q : β → Sys ι φ ε → Prop}
    (hk : Comes board E (k ()) (s.setProc p f) Q) : Comes board E (setProc p f >>= k) s Q :=
  Prog.Ends.change trivial hk

omit [Fintype ι] in
theorem comes_setProc_last {p : ι} {f : Proc ι ε → Proc ι ε} {Q : Unit → Sys ι φ ε → Prop}
    (hQ : Q () (s.setProc p f)) : Comes board E (setProc p f) s Q := Prog.Ends.change_last trivial hQ

end Comes

section SetProc
variable (s : Sys ι φ ε) (p : ι) (f : Proc ι ε → Proc ι ε)

omit [Fintype ι]
@[simp] theorem setProc_ram : (s.setProc p f).ram = s.ram := rfl
@[simp] theorem setProc_fs : (s.setProc p f).fs = s.fs := rfl
@[simp] theorem setProc_same : (s.setProc p f).procs p = f (s.procs p) := Function.update_self ..
theorem setProc_ne {q : ι} (h : q ≠ p) : (s.setProc p f).procs q = s.procs q := Function.update_of_ne h ..

end SetProc
end Farron.Memory
