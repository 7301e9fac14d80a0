import Farron.Memory.Freelist

/-! The page allocator among the threads that use it (`pages_kept`).

A thread owns the pages that it may write and free. While it has the lock it may be in the middle of a
change: it has taken a page off the list and not yet counted it off, or the other way round. -/
namespace Farron.Memory
open Resumption

/-! ### Every run -/

/-- How far a thread is in a change of the list. -/
inductive Phase
  | whole
  | seen (r : Nat)
  | taken (r : Nat)
  | linked (r : Nat)
  | pushed (r : Nat)

structure PageOwn where
  pages : List Nat
  phase : Phase

/-- What the list is for a thread that changes it, where `l` are the free pages. -/
def Phase.Shape (d : Kmem) (l pages : List Nat) : Phase → Prop
  | .whole => True
  | .seen r => d.freelist = r ∧ FreeList d.mem d.freelist l
  | .taken r => ∃ l', l = r :: l' ∧ FreeList d.mem d.freelist l'
  | .linked r => r ∈ pages ∧ word64 d.mem r = d.freelist ∧ FreeList d.mem d.freelist l
  | .pushed r => r ∈ pages ∧ FreeList d.mem d.freelist (r :: l)

/-- A thread without the lock does not change the list. -/
def Still (o : PageOwn) : Prop := o.phase = .whole

theorem still_whole (pages : List Nat) : Still ⟨pages, .whole⟩ := rfl

/-- The free pages are on the list, but for the change that is being made, and each other page is owned once. -/
structure PagesKept {ι : Type} (kernelEnd : Nat) (d : Kmem) (T : ι → PageOwn) : Prop where
  nodup : ∀ i, (T i).pages.Nodup
  apart : ∀ i j p, p ∈ (T i).pages → p ∈ (T j).pages → i = j
  owned : ∀ i, ∀ p ∈ (T i).pages, Whole kernelEnd p ∧ p ∈ d.out
  covered : ∀ p ∈ d.out, ∃ i, p ∈ (T i).pages
  out : d.out.Nodup
  list : ∃ l, Stock kernelEnd d l ∧ (∀ i, (T i).phase.Shape d l (T i).pages) ∧
    ((∀ i, Still (T i)) → FreeList d.mem d.freelist l)

namespace PagesKept
variable {ι : Type} [DecidableEq ι] {kernelEnd r : Nat} {d : Kmem} {T : ι → PageOwn} {i : ι} {pages : List Nat}
  (h : PagesKept kernelEnd d T)
include h

/-- A change of the list, by the thread that has the lock: the pages stay where they are. -/
theorem change (phase : Phase) (hi : (T i).pages = pages) (hothers : ∀ j, j ≠ i → Still (T j)) {d' : Kmem}
    (hout : d'.out = d.out) (hnpage : d'.npage = d.npage)
    (hshape : ∀ l, Stock kernelEnd d l → (T i).phase.Shape d l pages → ((T i).phase = .whole → FreeList d.mem d.freelist l) →
      phase.Shape d' l pages ∧ (phase = .whole → FreeList d'.mem d'.freelist l)) :
    PagesKept kernelEnd d' (Function.update T i ⟨pages, phase⟩) := by
  have hpages : ∀ j, (Function.update T i ⟨pages, phase⟩ j).pages = (T j).pages := by
    intro j
    by_cases hj : j = i
    · rw [hj, Function.update_self, hi]
    · rw [Function.update_of_ne hj]
  obtain ⟨l, hstock, hall, hwhole⟩ := h.list
  have hstill : (T i).phase = .whole → ∀ j, Still (T j) := by
    intro hw j
    by_cases hj : j = i
    · rw [hj]
      exact hw
    · exact hothers j hj
  obtain ⟨hnew, hdone⟩ := hshape l hstock (hi ▸ hall i) fun hw => hwhole (hstill hw)
  refine ⟨fun j => ?_, fun j k p hp hq => ?_, fun j p hp => ?_, fun p hp => ?_, ?_, l, ⟨hstock.nodup, ?_, ?_⟩, fun j => ?_, fun hw => ?_⟩
  · rw [hpages]
    exact h.nodup j
  · rw [hpages] at hp hq
    exact h.apart j k p hp hq
  · rw [hpages] at hp
    rw [hout]
    exact h.owned j p hp
  · rw [hout] at hp
    obtain ⟨j, hj⟩ := h.covered p hp
    refine ⟨j, ?_⟩
    rw [hpages]
    exact hj
  · rw [hout]
    exact h.out
  · rw [hout]
    exact hstock.pages
  · rw [hnpage]
    exact hstock.npage
  · by_cases hj : j = i
    · rw [hj, Function.update_self]
      exact hnew
    · rw [Function.update_of_ne hj, show (T j).phase = .whole from hothers j hj]
      trivial
  · have hself := hw i
    rw [Function.update_self] at hself
    exact hdone hself

omit [DecidableEq ι] in
/-- A thread writes into a page of its own. -/
theorem write {p : Nat} (hp : p ∈ (T i).pages) (hi : Still (T i)) {mem : Nat → Byte} (hm : SameOff p d.mem mem) :
    PagesKept kernelEnd { d with mem := mem } T := by
  obtain ⟨l, hstock, hall, hwhole⟩ := h.list
  have hpout : p ∈ d.out := (h.owned i p hp).2
  have hpal : p % pgsize = 0 := (h.owned i p hp).1.1
  have hpl : p ∉ l := fun hmem => ((hstock.pages p).mp hmem).2 hpout
  have hown : ∀ j r, r ∈ (T j).pages → (T j).phase ≠ .whole → r ≠ p := by
    intro j r hr hne hrp
    rw [hrp] at hr
    rw [h.apart j i p hr hp] at hne
    exact hne hi
  refine ⟨h.nodup, h.apart, h.owned, h.covered, h.out, l, ⟨hstock.nodup, hstock.pages, hstock.npage⟩, fun j => ?_, fun hw => ?_⟩
  · have hj := hall j
    cases hphase : (T j).phase with
    | whole => trivial
    | seen r =>
      rw [hphase] at hj
      exact ⟨hj.1, hj.2.off hstock.aligned hpl hm⟩
    | taken r =>
      rw [hphase] at hj
      obtain ⟨l', rfl, hlist⟩ := hj
      exact ⟨l', rfl, hlist.off (fun q hq => hstock.aligned q (List.mem_cons_of_mem _ hq))
        (fun hmem => hpl (List.mem_cons_of_mem _ hmem)) hm⟩
    | linked r =>
      rw [hphase] at hj
      obtain ⟨hr, hword, hlist⟩ := hj
      have hne := hown j r hr (by rw [hphase]; exact Phase.noConfusion)
      exact ⟨hr, (hm.word (h.owned j r hr).1.1 hne).trans hword, hlist.off hstock.aligned hpl hm⟩
    | pushed r =>
      rw [hphase] at hj
      obtain ⟨hr, hlist⟩ := hj
      have hne := hown j r hr (by rw [hphase]; exact Phase.noConfusion)
      refine ⟨hr, hlist.off (fun q hq => ?_) (fun hmem => ?_) hm⟩
      · rcases List.mem_cons.mp hq with rfl | hq
        · exact (h.owned j q hr).1.1
        · exact hstock.aligned q hq
      · rcases List.mem_cons.mp hmem with hpr | hmem
        · exact hne hpr.symm
        · exact hpl hmem
  · exact (hwhole hw).off hstock.aligned hpl hm

/-- `kmem.npage--`: the page that was taken now belongs to the thread. -/
theorem countOff (hi : T i = ⟨pages, .taken r⟩) (hothers : ∀ j, j ≠ i → Still (T j)) :
    PagesKept kernelEnd { d with npage := u64 (d.npage + (2 ^ 64 - 1)), out := r :: d.out }
      (Function.update T i ⟨r :: pages, .whole⟩) := by
  obtain ⟨l, hstock, hall, -⟩ := h.list
  have hshape := hall i
  rw [hi] at hshape
  obtain ⟨l', hl, hlist⟩ := hshape
  subst hl
  obtain ⟨hwhole, hfree⟩ := (hstock.pages r).mp (List.mem_cons_self ..)
  obtain ⟨hrl, hnd⟩ := List.nodup_cons.mp hstock.nodup
  have hnew : ∀ j, r ∉ (T j).pages := fun j hr => hfree (h.owned j r hr).2
  have hpages : ∀ j p, p ∈ (Function.update T i ⟨r :: pages, .whole⟩ j).pages → p = r ∧ j = i ∨ p ∈ (T j).pages := by
    intro j p hp
    by_cases hj : j = i
    · subst hj
      rw [Function.update_self] at hp
      rw [hi]
      rcases List.mem_cons.mp hp with hr | hp
      · exact .inl ⟨hr, rfl⟩
      · exact .inr hp
    · rw [Function.update_of_ne hj] at hp
      exact .inr hp
  have hkept : ∀ j p, p ∈ (T j).pages → p ∈ (Function.update T i ⟨r :: pages, .whole⟩ j).pages := by
    intro j p hp
    by_cases hj : j = i
    · subst hj
      rw [hi] at hp
      rw [Function.update_self]
      exact List.mem_cons_of_mem _ hp
    · rw [Function.update_of_ne hj]
      exact hp
  refine ⟨fun j => ?_, fun j k p hp hq => ?_, fun j p hp => ?_, fun p hp => ?_, List.nodup_cons.mpr ⟨hfree, h.out⟩, l',
    ⟨hnd, fun p => ?_, ?_⟩, fun j => ?_, fun _ => hlist⟩
  · by_cases hj : j = i
    · subst hj
      rw [Function.update_self]
      have hold := h.nodup j
      have hr := hnew j
      rw [hi] at hold hr
      exact List.nodup_cons.mpr ⟨hr, hold⟩
    · rw [Function.update_of_ne hj]
      exact h.nodup j
  · rcases hpages j p hp with ⟨hpr, hj⟩ | hpj
    · rcases hpages k p hq with ⟨-, hk⟩ | hqk
      · rw [hj, hk]
      · exact absurd (hpr ▸ hqk) (hnew k)
    · rcases hpages k p hq with ⟨hpr, -⟩ | hqk
      · exact absurd (hpr ▸ hpj) (hnew j)
      · exact h.apart j k p hpj hqk
  · rcases hpages j p hp with ⟨rfl, -⟩ | hp
    · exact ⟨hwhole, List.mem_cons_self ..⟩
    · exact ⟨(h.owned j p hp).1, List.mem_cons_of_mem _ (h.owned j p hp).2⟩
  · rcases List.mem_cons.mp hp with hpr | hp
    · refine ⟨i, ?_⟩
      rw [Function.update_self, hpr]
      exact List.mem_cons_self ..
    · obtain ⟨j, hj⟩ := h.covered p hp
      exact ⟨j, hkept j p hj⟩
  · show p ∈ l' ↔ Whole kernelEnd p ∧ p ∉ r :: d.out
    rw [List.mem_cons, not_or]
    constructor
    · intro hp
      obtain ⟨hw, hout⟩ := (hstock.pages p).mp (List.mem_cons_of_mem _ hp)
      exact ⟨hw, fun hpr => hrl (hpr ▸ hp), hout⟩
    · rintro ⟨hw, hne, hout⟩
      exact (List.mem_cons.mp ((hstock.pages p).mpr ⟨hw, hout⟩)).resolve_left hne
  · have hfew := length_whole_le hstock.nodup fun p hp => hstock.whole hp
    rw [List.length_cons] at hfew
    show u64 (d.npage + (2 ^ 64 - 1)) = l'.length
    rw [hstock.npage, List.length_cons]
    unfold u64
    omega
  · by_cases hj : j = i
    · rw [hj, Function.update_self]
      trivial
    · rw [Function.update_of_ne hj, show (T j).phase = .whole from hothers j hj]
      trivial

/-- `kmem.npage++`: the page that was put on the list is no longer the thread's. -/
theorem countBack (hi : T i = ⟨pages, .pushed r⟩) (hothers : ∀ j, j ≠ i → Still (T j)) :
    PagesKept kernelEnd { d with npage := u64 (d.npage + 1), out := d.out.erase r }
      (Function.update T i ⟨pages.erase r, .whole⟩) := by
  obtain ⟨l, hstock, hall, -⟩ := h.list
  have hshape := hall i
  have hnodup := h.nodup i
  rw [hi] at hshape hnodup
  have hnodup : pages.Nodup := hnodup
  obtain ⟨hr, hlist⟩ := hshape
  have hri : r ∈ (T i).pages := by
    rw [hi]
    exact hr
  obtain ⟨hwhole, hout⟩ := h.owned i r hri
  have hrl : r ∉ l := fun hmem => ((hstock.pages r).mp hmem).2 hout
  have hpages : ∀ j p, p ∈ (Function.update T i ⟨pages.erase r, .whole⟩ j).pages → p ∈ (T j).pages ∧ p ≠ r := by
    intro j p hp
    by_cases hj : j = i
    · subst hj
      rw [Function.update_self] at hp
      rw [hi]
      obtain ⟨hne, hp⟩ := (List.Nodup.mem_erase_iff hnodup).mp hp
      exact ⟨hp, hne⟩
    · rw [Function.update_of_ne hj] at hp
      refine ⟨hp, fun hpr => hj ?_⟩
      rw [hpr] at hp
      exact h.apart j i r hp hri
  have hkept : ∀ j p, p ≠ r → p ∈ (T j).pages → p ∈ (Function.update T i ⟨pages.erase r, .whole⟩ j).pages := by
    intro j p hne hp
    by_cases hj : j = i
    · subst hj
      rw [hi] at hp
      rw [Function.update_self]
      exact (List.mem_erase_of_ne hne).mpr hp
    · rw [Function.update_of_ne hj]
      exact hp
  have hnd : (r :: l).Nodup := List.nodup_cons.mpr ⟨hrl, hstock.nodup⟩
  have hall : ∀ p ∈ r :: l, Whole kernelEnd p := by
    intro p hp
    rcases List.mem_cons.mp hp with rfl | hp
    · exact hwhole
    · exact hstock.whole hp
  refine ⟨fun j => ?_, fun j k p hp hq => h.apart j k p (hpages j p hp).1 (hpages k p hq).1, fun j p hp => ?_, fun p hp => ?_,
    h.out.erase r, r :: l, ⟨hnd, fun p => ?_, ?_⟩, fun j => ?_, fun _ => hlist⟩
  · by_cases hj : j = i
    · rw [hj, Function.update_self]
      exact hnodup.erase r
    · rw [Function.update_of_ne hj]
      exact h.nodup j
  · obtain ⟨hp, hne⟩ := hpages j p hp
    exact ⟨(h.owned j p hp).1, (List.mem_erase_of_ne hne).mpr (h.owned j p hp).2⟩
  · obtain ⟨hne, hp⟩ := (List.Nodup.mem_erase_iff h.out).mp hp
    obtain ⟨j, hj⟩ := h.covered p hp
    exact ⟨j, hkept j p hne hj⟩
  · show p ∈ r :: l ↔ Whole kernelEnd p ∧ p ∉ d.out.erase r
    rw [List.mem_cons, hstock.pages, List.Nodup.mem_erase_iff h.out]
    constructor
    · rintro (rfl | ⟨hw, hno⟩)
      · exact ⟨hwhole, fun hmem => hmem.1 rfl⟩
      · exact ⟨hw, fun hmem => hno hmem.2⟩
    · rintro ⟨hw, hno⟩
      by_cases hpr : p = r
      · exact .inl hpr
      · exact .inr ⟨hw, fun hmem => hno ⟨hpr, hmem⟩⟩
  · have hfew := length_whole_le hnd hall
    rw [List.length_cons] at hfew
    show u64 (d.npage + 1) = (r :: l).length
    rw [hstock.npage, List.length_cons]
    exact u64_of_lt (by omega)
  · by_cases hj : j = i
    · rw [hj, Function.update_self]
      trivial
    · rw [Function.update_of_ne hj, show (T j).phase = .whole from hothers j hj]
      trivial

omit h in
/-- Two threads have new tokens: what holds of these and of the others' holds of all. -/
theorem forall_pair {j : ι} {t u : PageOwn} {Q : ι → PageOwn → Prop} (hi : Q i t) (hj : Q j u)
    (hrest : ∀ k, k ≠ i → k ≠ j → Q k (T k)) : ∀ k, Q k (Function.update (Function.update T i t) j u k) := by
  rw [Function.forall_update_iff]
  refine ⟨hj, fun k hkj => ?_⟩
  by_cases hki : k = i
  · rw [hki, Function.update_self]
    exact hi
  · rw [Function.update_of_ne hki]
    exact hrest k hki hkj

/-- Two threads have the pages `pages'` and `own'`, no page twice and none of another's: nobody shares a page. -/
theorem apart_pair {j : ι} {pages' own' : List Nat} (hdisj : pages'.Disjoint own')
    (hothers : ∀ k p, k ≠ i → k ≠ j → p ∈ (T k).pages → ¬ (p ∈ pages' ∨ p ∈ own')) :
    ∀ k m p, p ∈ (Function.update (Function.update T i ⟨pages', .whole⟩) j ⟨own', .whole⟩ k).pages →
      p ∈ (Function.update (Function.update T i ⟨pages', .whole⟩) j ⟨own', .whole⟩ m).pages → k = m := by
  have hfirst : ∀ m p, p ∈ (Function.update (Function.update T i ⟨pages', .whole⟩) j ⟨own', .whole⟩ m).pages →
      p ∈ pages' → i = m := by
    refine forall_pair (Q := fun m o => ∀ p, p ∈ o.pages → p ∈ pages' → i = m) ?_ ?_ ?_
    · exact fun _ _ _ => rfl
    · exact fun p hown hp => absurd hown (hdisj hp)
    · exact fun k hki hkj p hk hp => absurd (.inl hp) (hothers k p hki hkj hk)
  have hsecond : ∀ m p, p ∈ (Function.update (Function.update T i ⟨pages', .whole⟩) j ⟨own', .whole⟩ m).pages →
      p ∈ own' → j = m := by
    refine forall_pair (Q := fun m o => ∀ p, p ∈ o.pages → p ∈ own' → j = m) ?_ ?_ ?_
    · exact fun p hp hown => absurd hown (hdisj hp)
    · exact fun _ _ _ => rfl
    · exact fun k hki hkj p hk hown => absurd (.inr hown) (hothers k p hki hkj hk)
  refine forall_pair (Q := fun k o => ∀ m p, p ∈ o.pages → p ∈ (Function.update (Function.update T i _) j _ m).pages → k = m)
    (fun m p hp hm => hfirst m p hm hp) (fun m p hp hm => hsecond m p hm hp) fun k hki hkj => ?_
  refine forall_pair (Q := fun m o => ∀ p, p ∈ (T k).pages → p ∈ o.pages → k = m) ?_ ?_ fun m _ _ p => h.apart k m p
  · exact fun p hk hp => absurd (.inl hp) (hothers k p hki hkj hk)
  · exact fun p hk hown => absurd (.inr hown) (hothers k p hki hkj hk)

/-- Pages are handed over. -/
theorem handOver {j : ι} (hij : i ≠ j) {own own' : List Nat} (hi : T i = ⟨pages, .whole⟩) (hj : T j = ⟨own, .whole⟩)
    {pages' : List Nat} (hperm : (pages' ++ own').Perm (pages ++ own)) :
    PagesKept kernelEnd d (Function.update (Function.update T i ⟨pages', .whole⟩) j ⟨own', .whole⟩) := by
  have hpi : (T i).pages = pages := by rw [hi]
  have hpj : (T j).pages = own := by rw [hj]
  have hold : (pages ++ own).Nodup := by
    refine List.Nodup.append (hpi ▸ h.nodup i) (hpj ▸ h.nodup j) fun p hp hq => ?_
    rw [← hpi] at hp
    rw [← hpj] at hq
    exact hij (h.apart i j p hp hq)
  obtain ⟨hndi, hndj, hdisj⟩ := List.nodup_append'.mp (hperm.nodup_iff.mpr hold)
  have hgiven : ∀ p, p ∈ pages' ∨ p ∈ own' ↔ p ∈ (T i).pages ∨ p ∈ (T j).pages := by
    intro p
    rw [hpi, hpj, ← List.mem_append, hperm.mem_iff, List.mem_append]
  have hothers : ∀ k p, k ≠ i → k ≠ j → p ∈ (T k).pages → ¬ (p ∈ pages' ∨ p ∈ own') := by
    intro k p hki hkj hp hnew
    rcases (hgiven p).mp hnew with hq | hq
    · exact hki (h.apart k i p hp hq)
    · exact hkj (h.apart k j p hp hq)
  have hout : ∀ p, p ∈ pages' ∨ p ∈ own' → Whole kernelEnd p ∧ p ∈ d.out := by
    intro p hp
    rcases (hgiven p).mp hp with hq | hq
    · exact h.owned i p hq
    · exact h.owned j p hq
  obtain ⟨l, hstock, hall, hwhole⟩ := h.list
  refine ⟨forall_pair (Q := fun _ o => o.pages.Nodup) hndi hndj fun k _ _ => h.nodup k, h.apart_pair hdisj hothers,
    forall_pair (Q := fun _ o => ∀ p ∈ o.pages, Whole kernelEnd p ∧ p ∈ d.out) (fun p hp => hout p (.inl hp))
      (fun p hp => hout p (.inr hp)) fun k _ _ => h.owned k,
    fun p hp => ?_, h.out, l, hstock, forall_pair (Q := fun _ o => o.phase.Shape d l o.pages) trivial trivial fun k _ _ => hall k,
    fun hw => hwhole fun k => ?_⟩
  · obtain ⟨k, hk⟩ := h.covered p hp
    by_cases hk' : k = i ∨ k = j
    · have hnew : p ∈ pages' ∨ p ∈ own' := by
        rw [hgiven]
        rcases hk' with rfl | rfl
        · exact .inl hk
        · exact .inr hk
      rcases hnew with hp | hp
      · refine ⟨i, ?_⟩
        rw [Function.update_of_ne hij, Function.update_self]
        exact hp
      · refine ⟨j, ?_⟩
        rw [Function.update_self]
        exact hp
    · obtain ⟨hki, hkj⟩ := not_or.mp hk'
      refine ⟨k, ?_⟩
      rw [Function.update_of_ne hkj, Function.update_of_ne hki]
      exact hk
  · by_cases hkj : k = j
    · rw [hkj, hj]
      rfl
    · by_cases hki : k = i
      · rw [hki, hi]
        rfl
      · have hstill := hw k
        rw [Function.update_of_ne hkj, Function.update_of_ne hki] at hstill
        exact hstill

omit [DecidableEq ι] in
/-- The list has no cycle, not even in the middle of a change. -/
theorem acyclic : ∃ l, FreeList d.mem d.freelist l ∧ l.Nodup := by
  obtain ⟨l, hstock, hall, hwhole⟩ := h.list
  by_cases hstill : ∀ i, Still (T i)
  · exact ⟨l, hwhole hstill, hstock.nodup⟩
  · obtain ⟨i, hi⟩ := not_forall.mp hstill
    have hshape := hall i
    cases hphase : (T i).phase with
    | whole => exact absurd hphase hi
    | seen r =>
      rw [hphase] at hshape
      exact ⟨l, hshape.2, hstock.nodup⟩
    | taken r =>
      rw [hphase] at hshape
      obtain ⟨l', hl, hlist⟩ := hshape
      have hnd := hstock.nodup
      rw [hl] at hnd
      exact ⟨l', hlist, (List.nodup_cons.mp hnd).2⟩
    | linked r =>
      rw [hphase] at hshape
      exact ⟨l, hshape.2.2, hstock.nodup⟩
    | pushed r =>
      rw [hphase] at hshape
      obtain ⟨hr, hlist⟩ := hshape
      have hrl : r ∉ l := fun hmem => ((hstock.pages r).mp hmem).2 (h.owned i r hr).2
      exact ⟨r :: l, hlist, List.nodup_cons.mpr ⟨hrl, hstock.nodup⟩⟩

end PagesKept

/-! ### The code -/

section Code
variable {ι : Type} [DecidableEq ι] {kernelEnd : Nat} {i : ι} {pages : List Nat}

/-- Started by thread `i` with `t`, the program keeps the pages, and does not panic. -/
abbrev Pages (kernelEnd : Nat) {α : Type} (i : ι) (p : Kmem.Code ι α) (t : Turn PageOwn) (Q : α → Turn PageOwn → Prop) : Prop :=
  Turns Still (PagesKept kernelEnd) (fun _ => False) i p t Q

theorem pages_update {f : Kmem → Kmem} {locked : Bool} {own : PageOwn} (own' : PageOwn) (hstill : locked = false → Still own')
    (h : ∀ d T, PagesKept kernelEnd d T → T i = own → (locked = true → ∀ j, j ≠ i → Still (T j)) →
      PagesKept kernelEnd (f d) (Function.update T i own')) :
    Pages kernelEnd i (update () f) ⟨locked, own⟩ fun _ t => t = ⟨locked, own'⟩ := by
  refine turns_act (fun w w' hf => by cases hf; rfl) fun w T w' hI hT hf => ?_
  cases hf
  refine ⟨own', hstill, h w.data _ hI.own (by rw [hT]) fun hlk j hj => hI.others ?_ hj, Triple.ret rfl⟩
  rw [hT]
  exact hlk

/-- Writing into a page of one's own. -/
theorem pages_memset {p : Nat} (hp : p ∈ pages) (hal : p % pgsize = 0) (c : Byte) (n : Nat) {dst : Nat} (hlow : p ≤ dst)
    (hhigh : dst + n ≤ p + pgsize) :
    Pages kernelEnd i (Kmem.memset dst c n) ⟨false, ⟨pages, .whole⟩⟩ fun _ t => t = ⟨false, ⟨pages, .whole⟩⟩ := by
  induction n generalizing dst with
  | zero => exact Triple.ret rfl
  | succ n ih =>
    refine turns_seq (pages_update ⟨pages, .whole⟩ (fun _ => still_whole pages) fun d T hd hT _ => ?_) fun _ => ih (by omega) (by omega)
    rw [← hT, Function.update_eq_self]
    refine hd.write (i := i) (p := p) (by rw [hT]; exact hp) (by rw [hT]; rfl) (sameOff_store c ?_)
    exact pgrounddown_of hal hlow (by omega)

theorem pages_kfree {pa : Nat} (hpa : pa ∈ pages) (hwhole : Whole kernelEnd pa) :
    Pages kernelEnd i (Kmem.kfree kernelEnd i pa) ⟨false, ⟨pages, .whole⟩⟩
      fun _ t => t = ⟨false, ⟨pages.erase pa, .whole⟩⟩ := by
  obtain ⟨hal, hlow, htop⟩ := hwhole
  have hok : ¬ (pa % pgsize ≠ 0 ∨ pa < kernelEnd ∨ phystop ≤ pa) := by
    rw [pgsize_eq] at *
    omega
  unfold Kmem.kfree
  rw [if_neg hok]
  refine turns_seq (pages_memset hpa hal 1 pgsize (le_refl _) (le_refl _)) fun _ => turns_seq turns_acquire fun _ => ?_
  refine turns_seq (pages_update ⟨pages, .linked pa⟩ (fun h => by cases h) fun d T hd hT hothers => ?_) fun _ => ?_
  · refine hd.change (.linked pa) (by rw [hT]) (hothers rfl) rfl rfl fun l hstock _ hlist => ⟨?_, fun h => by cases h⟩
    have hlist := hlist (by rw [hT])
    have hpl : pa ∉ l := by
      intro hmem
      exact ((hstock.pages pa).mp hmem).2 (hd.owned i pa (by rw [hT]; exact hpa)).2
    exact ⟨hpa, word64_putWord64 _ _ (hlist.head_lt fun q hq => hstock.whole hq),
      hlist.off hstock.aligned hpl (sameOff_putWord64 _ hal)⟩
  refine turns_seq (pages_update ⟨pages, .pushed pa⟩ (fun h => by cases h) fun d T hd hT hothers => ?_) fun _ => ?_
  · refine hd.change (.pushed pa) (by rw [hT]) (hothers rfl) rfl rfl fun l hstock hshape _ => ⟨?_, fun h => by cases h⟩
    rw [hT] at hshape
    exact ⟨hpa, hshape.2.2.cons hshape.2.1⟩
  refine turns_seq (pages_update ⟨pages.erase pa, .whole⟩ (fun h => by cases h) fun d T hd hT hothers => ?_)
    fun _ => turns_release (still_whole _)
  exact hd.countBack hT (hothers rfl)

/-- What `kalloc` may return, where `out` are the pages that are out. -/
def Fresh (kernelEnd r : Nat) (out : List Nat) : Prop :=
  (r = 0 ↔ ∀ p, Whole kernelEnd p → p ∈ out) ∧ (r ≠ 0 → Whole kernelEnd r ∧ r ∉ out)

theorem pages_kalloc (hend : 0 < kernelEnd) :
    Pages kernelEnd i (Kmem.kalloc i) ⟨false, ⟨pages, .whole⟩⟩ fun x t => Fresh kernelEnd x.1 x.2 ∧
      t = ⟨false, ⟨if x.1 ≠ 0 then x.1 :: pages else pages, .whole⟩⟩ := by
  refine turns_seq turns_acquire fun _ => turns_act (fun w w' hf => by cases hf; rfl) fun w T w' hI hT hf => ?_
  cases hf
  have hkept := hI.own
  have hown : (T i).own = ⟨pages, .whole⟩ := by rw [hT]
  have hothers : ∀ j, j ≠ i → Still (T j).own := fun j hj => hI.others (by rw [hT]) hj
  obtain ⟨l, hstock, -, hwhole⟩ := hkept.list
  have hlist : FreeList w.data.mem w.data.freelist l := by
    refine hwhole fun j => ?_
    by_cases hj : j = i
    · rw [hj, hown]
      rfl
    · exact hothers j hj
  have hzero := hlist.head_eq_zero (hstock.nonzero hend)
  by_cases h0 : w.data.freelist = 0
  · refine ⟨⟨pages, .whole⟩, fun _ => still_whole pages, ?_, ?_⟩
    · rw [← hown, Function.update_eq_self i fun j => (T j).own]
      exact hkept
    · have hall : ∀ p, Whole kernelEnd p → p ∈ w.data.out := by
        intro p hp
        by_contra hout
        have hmem := (hstock.pages p).mpr ⟨hp, hout⟩
        rw [hzero.mp h0] at hmem
        cases hmem
      show Pages kernelEnd i (if w.data.freelist ≠ 0 then _ else _) _ _
      rw [if_neg (not_not.mpr h0)]
      refine turns_seq (turns_release (still_whole pages)) fun _ => Triple.ret ⟨⟨?_, fun h => absurd rfl h⟩, ?_⟩
      · exact ⟨fun _ => hall, fun _ => rfl⟩
      · rw [if_neg (not_not.mpr rfl)]
  · obtain ⟨l', hl⟩ := hlist.exists_cons h0
    have hmem : w.data.freelist ∈ l := by
      rw [hl]
      exact List.mem_cons_self ..
    obtain ⟨hw, hno⟩ := (hstock.pages _).mp hmem
    have hfresh : Fresh kernelEnd w.data.freelist w.data.out :=
      ⟨⟨fun h => absurd h h0, fun hout => absurd (hout _ hw) hno⟩, fun _ => ⟨hw, hno⟩⟩
    refine ⟨⟨pages, .seen w.data.freelist⟩, fun h => (by cases h), ?_, ?_⟩
    · exact hkept.change (.seen _) (by rw [hown]) hothers rfl rfl fun m _ _ hm =>
        ⟨⟨rfl, hm (by rw [hown])⟩, fun h => by cases h⟩
    show Pages kernelEnd i (if w.data.freelist ≠ 0 then _ else _) _ _
    rw [if_pos h0]
    generalize w.data.freelist = r at *
    refine turns_seq (pages_update ⟨pages, .taken r⟩ (fun h => by cases h) fun d T hd hT hothers => ?_) fun _ => ?_
    · refine hd.change (.taken r) (by rw [hT]) (hothers rfl) rfl rfl fun m hm hshape _ => ⟨?_, fun h => by cases h⟩
      rw [hT] at hshape
      obtain ⟨hr, hlist⟩ := hshape
      obtain ⟨m', hm'⟩ := hlist.exists_cons (by rw [hr]; exact h0)
      rw [hr] at hm'
      rw [hm'] at hlist
      exact ⟨m', hm', hlist.uncons⟩
    refine turns_seq (pages_update ⟨r :: pages, .whole⟩ (fun h => by cases h) fun d T hd hT hothers => ?_)
      fun _ => ?_
    · exact hd.countOff hT (hothers rfl)
    refine turns_seq (turns_release (still_whole _)) fun _ => ?_
    refine turns_seq (pages_memset (List.mem_cons_self ..) hw.1 5 pgsize (le_refl _) (le_refl _)) fun _ => Triple.ret ⟨hfresh, ?_⟩
    rw [if_pos h0]

end Code

/-! ### Runs -/

section Runs
variable {ι : Type} [DecidableEq ι] {kernelEnd : Nat}

/-- What an idle thread has, and what it was told. -/
def Settled (kernelEnd : Nat) (u : PageUser) (t : Turn PageOwn) : Prop :=
  t = ⟨false, ⟨u.pages, .whole⟩⟩ ∧ (∀ p ∈ u.pages, Whole kernelEnd p) ∧ ∀ r out, u.got = some (r, out) → Fresh kernelEnd r out

theorem pages_call (hend : 0 < kernelEnd) (i : ι) (u : PageUser) (c : PageCall) (t : Turn PageOwn)
    (hc : (pageClient (ι := ι) kernelEnd).enabled u c) (ht : Settled kernelEnd u t) :
    Pages kernelEnd i (c.body kernelEnd i u) t (Settled kernelEnd) := by
  obtain ⟨rfl, hwhole, hgot⟩ := ht
  cases c with
  | kalloc =>
    refine Triple.bind (pages_kalloc hend) fun x t hx => Triple.ret ?_
    obtain ⟨hfresh, ht⟩ := hx
    refine ⟨ht, fun p hp => ?_, fun r out hr => ?_⟩
    · by_cases h0 : x.1 ≠ 0
      · rw [if_pos h0] at hp
        rcases List.mem_cons.mp hp with rfl | hp
        · exact (hfresh.2 h0).1
        · exact hwhole p hp
      · rw [if_neg h0] at hp
        exact hwhole p hp
    · cases hr
      exact hfresh
  | kfree pa =>
    have hpa : pa ∈ u.pages := hc
    refine Triple.bind (pages_kfree hpa (hwhole pa hpa)) fun _ t ht => Triple.ret ?_
    exact ⟨ht, fun p hp => hwhole p (List.mem_of_mem_erase hp), fun r out hr => by cases hr⟩
  | store a c =>
    have ha : pgrounddown a ∈ u.pages := hc
    refine Triple.bind (pages_update ⟨u.pages, .whole⟩ (fun _ => still_whole _) fun d T hd hT _ => ?_) fun _ t ht =>
      Triple.ret ⟨ht, hwhole, hgot⟩
    rw [← hT, Function.update_eq_self]
    exact hd.write (i := i) (p := pgrounddown a) (by rw [hT]; exact ha) (by rw [hT]; rfl) (sameOff_store c rfl)

theorem pages_pass (w : World ι Empty Kmem) (T : ι → Turn PageOwn) (i j : ι) (u v u' v' : PageUser) (hij : i ≠ j)
    (hI : Guarded Still (PagesKept kernelEnd) w T) (hi : Settled kernelEnd u (T i)) (hj : Settled kernelEnd v (T j))
    (hp : (pageClient (ι := ι) kernelEnd).pass u v u' v') : ∃ ti tj, Settled kernelEnd u' ti ∧ Settled kernelEnd v' tj ∧
      Guarded Still (PagesKept kernelEnd) w (Function.update (Function.update T i ti) j tj) := by
  obtain ⟨hperm, hgi, hgj⟩ := hp
  obtain ⟨hti, hwi, hfi⟩ := hi
  obtain ⟨htj, hwj, hfj⟩ := hj
  have hwhole : ∀ p, p ∈ u'.pages ∨ p ∈ v'.pages → Whole kernelEnd p := by
    intro p hp
    rw [← List.mem_append, hperm.mem_iff, List.mem_append] at hp
    exact hp.elim (hwi p) (hwj p)
  refine ⟨⟨false, ⟨u'.pages, .whole⟩⟩, ⟨false, ⟨v'.pages, .whole⟩⟩, ⟨rfl, fun p hp => hwhole p (.inl hp), ?_⟩,
    ⟨rfl, fun p hp => hwhole p (.inr hp), ?_⟩, ⟨fun k => ?_, fun k hk => ?_, ?_⟩⟩
  · rw [hgi]
    exact hfi
  · rw [hgj]
    exact hfj
  · rw [hI.lk]
    by_cases hkj : k = j
    · rw [hkj, Function.update_self, htj]
    · by_cases hki : k = i
      · rw [Function.update_of_ne hkj, hki, Function.update_self, hti]
      · rw [Function.update_of_ne hkj, Function.update_of_ne hki]
  · by_cases hkj : k = j
    · rw [hkj, Function.update_self]
      exact still_whole _
    · by_cases hki : k = i
      · rw [Function.update_of_ne hkj, hki, Function.update_self]
        exact still_whole _
      · rw [Function.update_of_ne hkj, Function.update_of_ne hki] at hk ⊢
        exact hI.calm k hk
  · rw [turn_own, turn_own]
    exact hI.own.handOver hij (by rw [hti]) (by rw [htj]) hperm

/-- **The page allocator.** -/
theorem pages_kept (hpos : 0 < kernelEnd) (hend : kernelEnd < 2 ^ 63) (hart : ι) {w₀ : World ι Empty Kmem}
    (hout : w₀.data.out = []) : ∃ w l₀, (Kmem.kinit kernelEnd hart).run w₀ = .done () w ∧
      FreeList w.data.mem w.data.freelist l₀ ∧ l₀.Nodup ∧ (∀ p, p ∈ l₀ ↔ Whole kernelEnd p) ∧
      ∀ g, Reach (pageClient kernelEnd) (fun _ _ => True) ⟨w, fun _ => .ret ⟨[], none⟩⟩ g →
        (∃ l, Stock kernelEnd g.shared.data l ∧ Kmem.freememAmount g.shared.data = 4096 * l.length ∧
          (g.shared.lk = none → FreeList g.shared.data.mem g.shared.data.freelist l)) ∧
        (∃ l, FreeList g.shared.data.mem g.shared.data.freelist l ∧ l.Nodup) ∧
        (∀ i u, g.thread i = .ret u → u.pages.Nodup ∧ (∀ p ∈ u.pages, p ∈ g.shared.data.out) ∧
          (∀ j v, j ≠ i → g.thread j = .ret v → u.pages.Disjoint v.pages) ∧
          ∀ r out, u.got = some (r, out) → Fresh kernelEnd r out) ∧
        (∀ p ∈ g.shared.data.out, ∃ i, ∀ u, g.thread i = .ret u → p ∈ u.pages) ∧
        ((∀ i, ∃ u, g.thread i = .ret u) → ∀ p, p ∈ g.shared.data.out ↔ ∃ i u, g.thread i = .ret u ∧ p ∈ u.pages) ∧
        ∀ i e, g.thread i ≠ .stop e := by
  obtain ⟨w, l₀, hrun, hlk, hnone, hlist, hstock⟩ := Kmem.kinit_run hend hart hout
  refine ⟨w, l₀, hrun, hlist, hstock.nodup, fun p => ?_, fun g hg => ?_⟩
  · rw [hstock.pages, hnone]
    exact ⟨fun h => h.1, fun h => ⟨h, List.not_mem_nil⟩⟩
  have hstart : Covered (Guarded Still (PagesKept kernelEnd)) (fun _ _ => True) (fun _ _ => True) (fun _ => False)
      (Settled kernelEnd) (⟨w, fun _ => .ret ⟨[], none⟩⟩ : Config Unit Stop (World ι Empty Kmem) ι PageUser) := by
    refine ⟨fun _ => ⟨false, ⟨[], .whole⟩⟩, ⟨fun i => ?_, fun _ _ => still_whole _, ?_⟩, fun i => Triple.ret ?_⟩
    · rw [hlk]
      exact ⟨fun h => (by cases h), fun h => by cases h⟩
    · refine ⟨fun _ => List.nodup_nil, fun _ _ p hp => (by cases hp), fun _ p hp => (by cases hp), fun p hp => ?_, ?_, l₀, hstock,
        fun _ => trivial, fun _ => hlist⟩
      · rw [hnone] at hp
        cases hp
      · rw [hnone]
        exact List.nodup_nil
    · exact ⟨rfl, fun p hp => (by cases hp), fun r out hr => by cases hr⟩
  obtain ⟨T, hI, hT⟩ := Reach.sound (fun i u c t hc ht => pages_call hpos i u c t hc ht) pages_pass hstart hg
  have hkept := hI.own
  have hidle : ∀ i u, g.thread i = .ret u → Settled kernelEnd u (T i) := fun i u hi => Covered.idle hT hi
  have hheld : ∀ i u p, g.thread i = .ret u → p ∈ u.pages → p ∈ g.shared.data.out := by
    intro i u p hi hp
    have hown : (T i).own.pages = u.pages := by rw [(hidle i u hi).1]
    rw [← hown] at hp
    exact (hkept.owned i p hp).2
  have howner : ∀ p ∈ g.shared.data.out, ∃ i, ∀ u, g.thread i = .ret u → p ∈ u.pages := by
    intro p hp
    obtain ⟨i, hip⟩ := hkept.covered p hp
    refine ⟨i, fun u hi => ?_⟩
    rw [(hidle i u hi).1] at hip
    exact hip
  refine ⟨?_, hkept.acyclic, fun i u hi => ?_, howner, fun hall p => ⟨fun hp => ?_, ?_⟩, fun i e hi => ?_⟩
  · obtain ⟨l, hs, -, hwhole⟩ := hkept.list
    have hfew := length_whole_le hs.nodup fun p hp => hs.whole hp
    refine ⟨l, hs, ?_, fun hfree => hwhole fun i => hI.free hfree i⟩
    unfold Kmem.freememAmount
    rw [hs.npage, Nat.shiftLeft_eq, u64_of_lt (by omega)]
    omega
  · obtain ⟨hti, -, hgot⟩ := hidle i u hi
    have hown : (T i).own.pages = u.pages := by rw [hti]
    refine ⟨?_, fun p hp => hheld i u p hi hp, fun j v hji hj p hp hq => ?_, hgot⟩
    · rw [← hown]
      exact hkept.nodup i
    · have hownj : (T j).own.pages = v.pages := by rw [(hidle j v hj).1]
      rw [← hown] at hp
      rw [← hownj] at hq
      exact hji (hkept.apart i j p hp hq).symm
  · obtain ⟨i, hip⟩ := howner p hp
    obtain ⟨u, hi⟩ := hall i
    exact ⟨i, u, hi, hip u hi⟩
  · rintro ⟨i, u, hi, hp⟩
    exact hheld i u p hi hp
  · have ht := hT i
    rw [hi] at ht
    exact ht

end Runs

/-- Two harts, before `kinit`. -/
def unbooted : World (Fin 2) Empty Kmem := ⟨fun _ => ⟨.unused, none, false, 0, none⟩, none, ⟨0, 0, fun _ => 0, []⟩⟩

/-- The first page is allocated, and freed. -/
theorem pages_kept_first : ∃ w g g' r, (Kmem.kinit 0x80040000 (0 : Fin 2)).run unbooted = .done () w ∧
    Reach (pageClient 0x80040000) (fun _ _ => True) ⟨w, fun _ => .ret ⟨[], none⟩⟩ g ∧
      g.thread 0 = .ret ⟨[r], some (r, [])⟩ ∧ Whole 0x80040000 r ∧ g.shared.data.out = [r] ∧
    Reach (pageClient 0x80040000) (fun _ _ => True) g g' ∧ g'.thread 0 = .ret ⟨[], none⟩ ∧ ∀ p, p ∉ g'.shared.data.out := by
  have hpos : 0 < 0x80040000 := by decide
  have hend : 0x80040000 < 2 ^ 63 := by decide
  obtain ⟨w, l, hrun, hlist, -, hl, hall⟩ := pages_kept hpos hend (0 : Fin 2) (show unbooted.data.out = [] from rfl)
  obtain ⟨w', -, hrun', hlk, hout, -⟩ := Kmem.kinit_run hend (0 : Fin 2) (w := unbooted) rfl
  rw [hrun] at hrun'
  cases hrun'
  have hfirst : 0x80040000 ∈ l := (hl _).mpr ⟨rfl, le_refl _, by decide⟩
  have h0 : w.data.freelist ≠ 0 := by
    rw [Ne, hlist.head_eq_zero fun p hp => ((hl p).mp hp).pos hpos]
    intro hnil
    rw [hnil] at hfirst
    cases hfirst
  have hk := Kmem.kalloc_run (i := (0 : Fin 2)) hlk h0
  rw [hout] at hk
  have hcall := (Prog.run_bind_done hk fun got => .ret (⟨if got.1 ≠ 0 then got.1 :: [] else [], some got⟩ : PageUser)).trans
    (congrArg (fun u => Outcome.done u _) (congrArg (PageUser.mk · _) (if_pos h0)))
  obtain ⟨g, hg, hshared, hthread, hother⟩ : ∃ g, Reach (pageClient 0x80040000) (fun _ _ => True)
      ⟨w, fun _ => .ret ⟨[], none⟩⟩ g ∧ g.shared = { w with lk := none, data := ⟨word64 w.data.mem w.data.freelist,
        u64 (w.data.npage + (2 ^ 64 - 1)), overwrite w.data.freelist pgsize (fun _ => 5) w.data.mem, [w.data.freelist]⟩ } ∧
      g.thread 0 = .ret ⟨[w.data.freelist], some (w.data.freelist, [])⟩ ∧ g.thread 1 = .ret ⟨[], none⟩ :=
    ⟨_, .callOn .refl (0 : Fin 2) rfl (c := .kalloc) trivial (a := ⟨[w.data.freelist], some (w.data.freelist, [])⟩) hcall
      (Prog.steps_always (fun _ _ => trivial) _ _) rfl, rfl, rfl, rfl⟩
  have hwhole : Whole 0x80040000 w.data.freelist := by
    obtain ⟨-, -, huser, -⟩ := hall _ hg
    exact ((huser 0 _ hthread).2.2.2 _ _ rfl |>.2 h0).1
  -- the page goes back, and then nobody has one
  have hf := Kmem.kfree_run (i := (0 : Fin 2)) hwhole (w := g.shared) (by rw [hshared])
  have hback := Prog.run_bind_done hf fun _ => .ret (⟨[w.data.freelist].erase w.data.freelist, none⟩ : PageUser)
  obtain ⟨g', hg', hfirst', hother'⟩ : ∃ g', Reach (pageClient 0x80040000) (fun _ _ => True) g g' ∧
      g'.thread 0 = .ret ⟨[w.data.freelist].erase w.data.freelist, none⟩ ∧ g'.thread 1 = .ret ⟨[], none⟩ :=
    ⟨_, .callOn .refl (0 : Fin 2) hthread (c := .kfree w.data.freelist) (show w.data.freelist ∈ [w.data.freelist] from
      List.mem_singleton_self _) hback (Prog.steps_always (fun _ _ => trivial) _ _) rfl, rfl, hother⟩
  rw [List.erase_cons_head] at hfirst'
  have hidle : ∀ i, g'.thread i = .ret ⟨[], none⟩ := Fin.forall_fin_two.mpr ⟨hfirst', hother'⟩
  refine ⟨w, g, g', w.data.freelist, hrun, hg, hthread, hwhole, by rw [hshared], hg', hfirst', fun p hp => ?_⟩
  obtain ⟨-, -, -, -, hiff, -⟩ := hall _ (hg.trans hg')
  obtain ⟨i, u, hi, hpu⟩ := (hiff (fun i => ⟨_, hidle i⟩) p).mp hp
  rw [hidle i] at hi
  cases hi
  cases hpu

end Farron.Memory
