import Farron.Memory.Children
import Farron.Memory.Sbrk
import Farron.Memory.AllOrNothing

/-! Making processes, when memory may run out.

`allocproc` takes eight pages: a trapframe, three for the user page table, a root for the kernel
page table, a stack and two to map it. Up to the root a failure gives everything back; between
the root and the last page it ends in a panic, since `kvmfree` unmaps a stack that is not mapped
yet. So `fork` is all or nothing, but for the numbers of free pages in `Strands`. -/
namespace Farron.Memory
open Resumption Radix
variable {ι φ ε : Type} [DecidableEq ι] {board : Board} {m₀ m m' : Ram} {R : Multiset (Page × Use)}

/-- So many free pages end inside `proc_kpagetable`, behind its root. -/
def Strands (free : Nat) : Prop := 5 ≤ free ∧ free < 8

instance (free : Nat) : Decidable (Strands free) := inferInstanceAs (Decidable (_ ∧ _))

/-- The one way to stop. -/
def unmapPanic : Stop := .panic "vmunmap: walk"

/-- Whoever owns the same pages leaves the same pages free. -/
theorem Books.free_perm (h : Books board m₀ R m) (h' : Books board m₀ R m') : m'.free.Perm m.free := by
  have heq := h'.pages.trans h.pages.symm
  exact Multiset.coe_eq_coe.mp (add_left_cancel heq)

/-! ### Longer lists of user pages -/

section Lists
variable {us new : List Pte} {stack : Option Page} {tf : Page}

theorem usrMap_append (board : Board) (tf : Page) (h : us.length + new.length ≤ 2 ^ 19) :
    mapAll (usrMap board tf us) us.length new = usrMap board tf (us ++ new) := by
  funext v
  unfold mapAll usrMap
  by_cases hv : us.length ≤ v ∧ v < us.length + new.length
  · rw [if_pos hv, if_pos (by omega), List.getElem?_append_right hv.1]
  · rw [if_neg hv]
    by_cases hlow : v < 2 ^ 19
    · rw [if_pos hlow, if_pos hlow]
      by_cases hus : v < us.length
      · rw [List.getElem?_append_left hus]
      · rw [List.getElem?_eq_none (by omega), List.getElem?_eq_none (by rw [List.length_append]; omega)]
    · rw [if_neg hlow, if_neg hlow]

theorem kernMap_append (stack : Option Page) (h : us.length + new.length ≤ 2 ^ 19) :
    mapAll (kernMap stack us) us.length (new.map Pte.kern) = kernMap stack (us ++ new) := by
  funext v
  unfold mapAll kernMap
  rw [List.length_map]
  by_cases hv : us.length ≤ v ∧ v < us.length + new.length
  · rw [if_pos hv, if_pos (by omega), List.getElem?_append_right hv.1, List.getElem?_map]
  · rw [if_neg hv]
    by_cases hlow : v < 2 ^ 19
    · rw [if_pos hlow, if_pos hlow]
      by_cases hus : v < us.length
      · rw [List.getElem?_append_left hus]
      · rw [List.getElem?_eq_none (by omega), List.getElem?_eq_none (by rw [List.length_append]; omega)]
    · rw [if_neg hlow, if_neg hlow]

theorem usrMap_noUser (board : Board) (tf : Page) (us : List Pte) : NoUser (usrMap board tf us) us.length := by
  intro v hv hlt
  rw [usrMap, if_pos hlt, List.getElem?_eq_none hv]

theorem kernMap_noUser (stack : Option Page) (us : List Pte) : NoUser (kernMap stack us) us.length := by
  intro v hv hlt
  rw [kernMap, if_pos hlt, List.getElem?_eq_none hv, Option.map_none]

end Lists

/-! ### allocproc -/

section Alloc
variable {G : Label → Ram → Prop} {ok : Use → Prop} {E : Stop → Prop} {x : Use}

/-- `kalloc`, with nothing behind it. -/
theorem ends_kalloc_last (hm : Stocked board m₀) (hG : Allows board m₀ G ok) (hb : Books board m₀ R m) :
    (kalloc x).Ends G E m fun r m' => (r = none ∧ m' = m ∧ m.free = []) ∨
      ∃ p, r = some p ∧ m.free.length = m'.free.length + 1 ∧ Books board m₀ ((p, x) ::ₘ R) m' ∧ Same R m m' := by
  rw [← bind_pure (kalloc x)]
  refine ends_kalloc hm hG hb (fun hf => .inl ⟨rfl, rfl, hf⟩) fun p m' hf hb' hs => .inr ⟨p, rfl, ?_, hb', hs⟩
  rw [hf]
  rfl

end Alloc

variable [Fintype ι] {E : Stop → Prop} {s s' : Sys ι φ ε} {T : ι → Option Image} {j p : ι}

/-- A call that came to nothing: what the processes have is as it was, and the slot that was tried is
still free. -/
structure Dropped (board : Board) (m₀ : Ram) (T : ι → Option Image) (j : ι) (s s' : Sys ι φ ε) : Prop where
  held : Held board m₀ s' T
  same : Same (∑ q, owned s.ram (T q)) s.ram s'.ram
  unused : (s'.procs j).state = .unused
  others : ∀ q, q ≠ j → s'.procs q = s.procs q
  fs : s'.fs = s.fs

/-- A slot was given an image without user pages; of the fields that do not say so, only the pid is new. -/
structure Started (board : Board) (m₀ : Ram) (T : ι → Option Image) (j : ι) (im : Image) (s s' : Sys ι φ ε) : Prop where
  held : Held board m₀ s' (Function.update T j (some im))
  same : Same (∑ q, owned s.ram (T q)) s.ram s'.ram
  bare : im.us = []
  procs : s'.procs = Function.update s.procs j { s.procs j with
    pid := s.nextpid, trapframe := some im.tf, pagetable := some im.upt, kpagetable := some im.kpt }
  fs : s'.fs = s.fs

theorem Held.rest_vacant (h : Held board m₀ s T) (hj : T j = none) : Books board m₀ (rest s.ram T j) s.ram := by
  have hb := h.split j
  rwa [hj, owned_none, zero_add] at hb

theorem sum_vacant (m : Ram) (hj : T j = none) : ∑ q, owned m (T q) = rest m T j := by
  rw [sum_rest m T j, hj, owned_none, zero_add]

/-- The slot is empty again. -/
theorem Dropped.of_rest (h : Held board m₀ s T) (hj : T j = none) (hb : Books board m₀ (rest s.ram T j) m)
    (hs : Same (rest s.ram T j) s.ram m) {x : Proc ι ε} {n : Int} (hx : Vacant x) (hu : x.state = .unused) :
    Dropped board m₀ T j s ⟨m, Function.update s.procs j x, n, s.fs⟩ := by
  have hothers : ∀ q, q ≠ j → (⟨m, Function.update s.procs j x, n, s.fs⟩ : Sys ι φ ε).procs q = s.procs q :=
    fun q hq => Function.update_of_ne hq _ _
  have hself : (⟨m, Function.update s.procs j x, n, s.fs⟩ : Sys ι φ ε).procs j = x := Function.update_self _ _ _
  have hheld : Held board m₀ (⟨m, Function.update s.procs j x, n, s.fs⟩ : Sys ι φ ε) (Function.update T j none) := by
    refine h.update hothers hs nofun (fun _ => ?_) ?_
    · rw [hself]
      exact hx
    · rw [owned_none, zero_add]
      exact hb
  rw [← hj, Function.update_eq_self] at hheld
  refine ⟨hheld, ?_, by rw [hself]; exact hu, hothers, rfl⟩
  rw [sum_vacant s.ram hj]
  exact hs

omit [DecidableEq ι] [Fintype ι] in
theorem comes_allocpid {β : Type} {k : Int → Code ι φ ε β} {Q : β → Sys ι φ ε → Prop}
    (hk : Comes board E (k s.nextpid) { s with nextpid := s.nextpid + 1 } Q) : Comes board E (allocpid >>= k) s Q :=
  ⟨trivial, _, rfl, hk⟩

/-! The slot `j` of a table that is otherwise `f`. -/

section Slot
variable {β : Type} {k : Unit → Code ι φ ε β} {Q : β → Sys ι φ ε → Prop} {f : ι → Proc ι ε} {x : Proc ι ε} {n : Int} {fs : φ}
  {g : Proc ι ε → Proc ι ε} {tf u : Page}

omit [Fintype ι] in
theorem comes_slot (hk : ∀ y, y = g (f j) → Comes board E (k ()) ⟨m, Function.update f j y, n, fs⟩ Q) :
    Comes board E (setProc j g >>= k) ⟨m, f, n, fs⟩ Q := comes_setProc (hk _ rfl)

omit [Fintype ι] in
theorem comes_slot_again (hk : ∀ y, y = g x → Comes board E (k ()) ⟨m, Function.update f j y, n, fs⟩ Q) :
    Comes board E (setProc j g >>= k) ⟨m, Function.update f j x, n, fs⟩ Q := by
  apply comes_slot
  intro y hy
  rw [Function.update_self] at hy
  rw [Function.update_idem]
  exact hk y hy

omit [DecidableEq ι] [Fintype ι] in
theorem comes_vm_at {α : Type} {c : Vm α} {k : α → Code ι φ ε β} {P : α → Ram → Prop} (h : c.Ends (Sound board) E m P)
    (hk : ∀ a m', P a m' → Comes board E (k a) ⟨m', f, n, fs⟩ Q) : Comes board E (vm c >>= k) ⟨m, f, n, fs⟩ Q :=
  comes_vm h hk

omit [Fintype ι] in
/-- `freeproc` where there is a trapframe, and nothing else. -/
theorem comes_freeproc_trapframe (hm : Stocked board m₀) (htf : x.trapframe = some tf) (hk : x.kpagetable = none)
    (hu : x.pagetable = none) (hb : Books board m₀ ((tf, .trapframe) ::ₘ R) m) :
    Comes board E (freeproc board j) ⟨m, Function.update f j x, n, fs⟩ fun _ s' =>
      ∃ m', s' = ⟨m', Function.update f j x.gone, n, fs⟩ ∧ Books board m₀ R m' ∧ Same R m m' := by
  have hend := @comes_freeproc_of ι φ ε _ board E ⟨m, Function.update f j x, n, fs⟩ j
    (fun m' => Books board m₀ R m' ∧ Same R m m') (fun m' => Books board m₀ R m' ∧ Same R m m')
    (fun m' => Books board m₀ R m' ∧ Same R m m')
  simp only [Function.update_self, Function.update_idem] at hend
  refine hend (fun tf' h => ?_) (fun h => ?_) (fun k m h => ?_) (fun m _ hP => hP) (fun u m h => ?_) fun m _ hP => hP
  · rw [htf] at h
    cases h
    exact (ends_kfree hm (sound_allows hm) hb trivial).imp fun _ m' h => ⟨h.1, h.2.1⟩
  · rw [htf] at h
    cases h
  · rw [hk] at h
    cases h
  · rw [hu] at h
    cases h

omit [Fintype ι] in
/-- `freeproc` where there is a trapframe and a user page table that maps no user page. -/
theorem comes_freeproc_bare (hm : Booted board m₀) (htf : x.trapframe = some tf) (hk : x.kpagetable = none)
    (hu : x.pagetable = some u) (hsz : x.sz = 0)
    (h : Holds board m₀ Finset.univ (usrMap board tf []) u ((tf, .trapframe) ::ₘ R) m) :
    Comes board E (freeproc board j) ⟨m, Function.update f j x, n, fs⟩ fun _ s' =>
      ∃ m', s' = ⟨m', Function.update f j x.gone, n, fs⟩ ∧ Books board m₀ R m' ∧ Same R m m' := by
  have hend := @comes_freeproc_of ι φ ε _ board E ⟨m, Function.update f j x, n, fs⟩ j
    (fun m' => Holds board m₀ Finset.univ (usrMap board tf []) u R m' ∧ Same R m m')
    (fun m' => Holds board m₀ Finset.univ (usrMap board tf []) u R m' ∧ Same R m m')
    (fun m' => Books board m₀ R m' ∧ Same R m m')
  simp only [Function.update_self, Function.update_idem] at hend
  refine hend (fun tf' h' => ?_) (fun h' => ?_) (fun k m h' => ?_) (fun m _ hP => hP) (fun u' m₁ h' hP => ?_) fun m h' => ?_
  · rw [htf] at h'
    cases h'
    have hb : Books board m₀ ((tf, .trapframe) ::ₘ (tabs (pagesOf m Finset.univ u) + R)) m := by
      refine h.books.congr ?_
      rw [Multiset.add_cons]
    refine (ends_kfree hm.stocked (sound_allows hm.stocked) hb trivial).imp fun _ m' h' => ?_
    obtain ⟨hb', hs, -⟩ := h'
    refine ⟨⟨h.table.same hs.left, ?_⟩, hs.right⟩
    rw [hs.left.pagesOf]
    exact hb'
  · rw [htf] at h'
    cases h'
  · rw [hk] at h'
    cases h'
  · rw [hu] at h'
    cases h'
    rw [hsz]
    have hbare : Holds board m₀ Finset.univ (usrMap board tf []) u (userPages [] + R) m₁ := by
      refine hP.1.rest ?_
      rw [userPages_nil, zero_add]
    exact (ends_procFreepagetable hm (sound_allows hm.stocked) trivial trivial rfl (Nat.zero_le _) hbare).imp
      fun _ m' h'' => ⟨h''.1, hP.2.trans h''.2⟩
  · rw [hu] at h'
    cases h'

end Slot

theorem comes_allocFound (hm : Booted board m₀) (h : Held board m₀ s T) (hj : T j = none)
    (hu : (s.procs j).state = .unused) (hE : Strands s.ram.free.length → E unmapPanic) :
    Comes board E (allocFound board j) s fun r s' =>
      (r = none ∧ s.ram.free.length < 5 ∧ Dropped board m₀ T j s s') ∨
        (r = some j ∧ 8 ≤ s.ram.free.length ∧ ∃ im, Started board m₀ T j im s s' ∧
          s'.ram.free.length + 8 = s.ram.free.length) := by
  have hvac := h.vacant j hj
  have hb := h.rest_vacant hj
  obtain ⟨hu0, hk0, ht0, hsz0⟩ := hvac
  -- the pid is new, and then the trapframe
  unfold allocFound
  apply comes_allocpid
  apply comes_slot
  intro x₁ hx₁
  refine comes_vm_at (ends_kalloc_last hm.stocked (sound_allows hm.stocked) hb) fun r m₁ hr => ?_
  apply comes_slot_again
  intro x₂ hx₂
  obtain ⟨rfl, rfl, hfree⟩ | ⟨tf, rfl, hfree, hb₁, hs₁⟩ := hr
  · refine .inl ⟨rfl, ?_, Dropped.of_rest h hj hb (Same.refl _ _) ?_ ?_⟩
    · rw [hfree]
      exact Nat.succ_pos 4
    · rw [hx₂, hx₁]
      exact ⟨hu0, hk0, rfl, hsz0⟩
    · rw [hx₂, hx₁]
      exact hu
  have htf : tf < 2 ^ 52 := (hb₁.managed hm.stocked (Multiset.mem_cons_self _ _)).lt
  refine comes_vm_at (ends_procPagetable hm (sound_allows hm.stocked) trivial htf hb₁) fun r m₂ hr => ?_
  apply comes_slot_again
  intro x₃ hx₃
  have htf₃ : x₃.trapframe = some tf := by rw [hx₃, hx₂]
  have hk₃ : x₃.kpagetable = none := by
    rw [hx₃, hx₂, hx₁]
    exact hk0
  obtain ⟨hs₂, ⟨rfl, hb₂, hshort⟩ | ⟨u, rfl, h₂, hrow₂, hfree₂⟩⟩ := hr
  · refine (comes_freeproc_trapframe hm.stocked htf₃ hk₃ (by rw [hx₃]) hb₂).bind fun _ s' hs' => ?_
    obtain ⟨m₃, rfl, hb₃, hs₃⟩ := hs'
    exact .inl ⟨rfl, by omega, Dropped.of_rest h hj hb₃ ((hs₁.trans hs₂.tail).trans hs₃) ⟨rfl, rfl, rfl, rfl⟩ rfl⟩
  refine comes_vm_at (ends_procKpagetable (E := E) hm (sound_allows hm.stocked) (teardown_allows hm.stocked) h₂.books
    fun hpos hlt => hE ⟨by omega, by omega⟩) fun r m₃ hr => ?_
  apply comes_slot_again
  intro x₄ hx₄
  have hsz₃ : x₃.sz = 0 := by
    rw [hx₃, hx₂, hx₁]
    exact hsz0
  obtain ⟨hs₃, ⟨rfl, rfl, hfree₃⟩ | ⟨k, stack, rfl, h₃, hrow₃, husr₃, hfree₃⟩⟩ := hr
  · have hx₄ : x₄ = x₃ := by rw [hx₄, ← hk₃]
    rw [hx₄]
    refine (comes_freeproc_bare hm htf₃ hk₃ (by rw [hx₃]) hsz₃ h₂).bind fun _ s' hs' => ?_
    obtain ⟨m₄, rfl, hb₄, hs₄⟩ := hs'
    have hnone : m₃.free.length = 0 := by
      rw [hfree₃]
      rfl
    exact .inl ⟨rfl, by omega, Dropped.of_rest h hj hb₄ ((hs₁.trans hs₂.tail).trans hs₄) ⟨rfl, rfl, rfl, rfl⟩ rfl⟩
  have hsame : Same (rest s.ram T j) s.ram m₃ := (hs₁.trans hs₂.tail).trans hs₃.right.tail
  refine .inr ⟨rfl, by omega, ⟨u, k, tf, stack, []⟩, ⟨?_, ?_, rfl, ?_, rfl⟩, ?_⟩
  · refine h.update (fun q hq => Function.update_of_ne hq _ _) hsame (fun im him => ?_) nofun ?_
    · cases him
      refine ⟨?_, h₂.table.same hs₃.left, h₃.table, hrow₃⟩
      show Shows (Function.update s.procs j x₄ j) _
      rw [Function.update_self, hx₄, hx₃, hx₂]
      refine ⟨rfl, rfl, rfl, ?_, nofun⟩
      rw [hx₁]
      show npages (s.procs j).sz = 0
      rw [hsz0]
      rfl
    · refine h₃.books.congr ?_
      rw [owned_some]
      unfold Image.owned Image.pages
      rw [hs₃.left.pagesOf, userPages_nil, zero_add]
      simp only [← Multiset.singleton_add]
      abel
  · rw [sum_vacant s.ram hj]
    exact hsame
  · rw [hx₄, hx₃, hx₂, hx₁]
  · show m₃.free.length + 8 = s.ram.free.length
    omega

/-- The scan stops at the first free slot. -/
theorem comes_allocproc (hm : Booted board m₀) (h : Held board m₀ s T) (hfree : ∀ q, (s.procs q).state = .unused → T q = none)
    (proc : List ι) (hE : (∃ q ∈ proc, (s.procs q).state = .unused) → Strands s.ram.free.length → E unmapPanic) :
    Comes board E (allocproc board proc) s fun r s' =>
      (r = none ∧ ((∀ q ∈ proc, (s.procs q).state ≠ .unused) ∧ s' = s ∨
        s.ram.free.length < 5 ∧ ∃ j ∈ proc, (s.procs j).state = .unused ∧ Dropped board m₀ T j s s')) ∨
      ∃ j im, r = some j ∧ j ∈ proc ∧ (s.procs j).state = .unused ∧ 8 ≤ s.ram.free.length ∧ Started board m₀ T j im s s' ∧
        s'.ram.free.length + 8 = s.ram.free.length := by
  induction proc with
  | nil => exact .inl ⟨rfl, .inl ⟨nofun, rfl⟩⟩
  | cons j proc ih =>
    unfold allocproc
    apply comes_look
    by_cases hu : (s.procs j).state = .unused
    · rw [if_pos hu]
      refine (comes_allocFound hm h (hfree j hu) hu (hE ⟨j, List.mem_cons_self, hu⟩)).imp fun r s' hr => ?_
      obtain ⟨rfl, hlt, hd⟩ | ⟨rfl, hle, im, hst, hlen⟩ := hr
      · exact .inl ⟨rfl, .inr ⟨hlt, j, List.mem_cons_self, hu, hd⟩⟩
      · exact .inr ⟨j, im, rfl, List.mem_cons_self, hu, hle, hst, hlen⟩
    · rw [if_neg hu]
      refine (ih fun ⟨q, hq, hqu⟩ => hE ⟨q, List.mem_cons_of_mem j hq, hqu⟩).imp fun r s' hr => ?_
      obtain ⟨rfl, ⟨hall, rfl⟩ | ⟨hlt, q, hq, hqu, hd⟩⟩ | ⟨q, im, rfl, hq, hqu, hrest⟩ := hr
      · refine .inl ⟨rfl, .inl ⟨fun q hq => ?_, rfl⟩⟩
        rcases List.mem_cons.mp hq with rfl | hq
        · exact hu
        · exact hall q hq
      · exact .inl ⟨rfl, .inr ⟨hlt, q, List.mem_cons_of_mem j hq, hqu, hd⟩⟩
      · exact .inr ⟨q, im, rfl, List.mem_cons_of_mem j hq, hqu, hrest⟩

/-! ### fork -/

/-- What a child has of its parent: the user pages, one by one, with the parent's flags and contents, and
the parent's registers, but for the one that holds what `fork` returns. -/
structure CopyOf (parent child : Image) (m m' : Ram) : Prop where
  length : child.us.length = parent.us.length
  pages : ∀ (v : Nat) (e e' : Pte), child.us[v]? = some e → parent.us[v]? = some e' → e.flags = e'.flags ∧ m'.byte e.page = m.byte e'.page
  registers : ∃ b, m'.byte child.tf = putWord64 tfA0 0 (overwrite 0 tfSize (m.byte parent.tf) b)

/-- `fork` has made the process `j`. -/
structure Forked (board : Board) (m₀ : Ram) (T : ι → Option Image) (p j : ι) (parent child : Image) (s s' : Sys ι φ ε) : Prop where
  held : Held board m₀ s' (Function.update T j (some child))
  same : Same (∑ q, owned s.ram (T q)) s.ram s'.ram
  copy : CopyOf parent child s.ram s'.ram
  slot : ∃ y : Proc ι ε, s'.procs j = (s.procs p).inherit p y ∧ y.pid = s.nextpid
  others : ∀ q, q ≠ j → s'.procs q = s.procs q

theorem mem_owned_user {im : Image} {e : Pte} (h : e ∈ im.us) : (e.page, Use.user) ∈ im.owned m := by
  unfold Image.owned Image.pages
  exact Multiset.mem_add.mpr (.inr (Multiset.mem_add.mpr (.inr (Multiset.mem_add.mpr (.inl (mem_userPages h))))))

theorem mem_owned_trapframe (m : Ram) (im : Image) : (im.tf, Use.trapframe) ∈ im.owned m := by
  unfold Image.owned Image.pages
  exact Multiset.mem_add.mpr (.inr (Multiset.mem_add.mpr (.inr (Multiset.mem_add.mpr (.inr
    (Multiset.mem_cons_of_mem (Multiset.mem_singleton_self _)))))))

omit [DecidableEq ι] [Fintype ι] in
/-- The pages of a parent, from which `uvmcopy` copies. -/
theorem copy_source {im : Image} {x : Proc ι ε} (hsh : Shows x im) (hfew : im.us.length ≤ 2 ^ 19) (hle : im.owned m ≤ R) :
    ∀ i, i < npages x.sz → ∃ e u, usrMap board im.tf im.us i = some e ∧ (e.page, u) ∈ R ∧
      copyOf (usrMap board im.tf im.us) m i = (e.flags, m.byte e.page) := by
  intro i hi
  rw [hsh.size] at hi
  have he : usrMap board im.tf im.us i = some im.us[i] := by
    rw [usrMap, if_pos (by omega), List.getElem?_eq_getElem hi]
  refine ⟨im.us[i], .user, he, Multiset.mem_of_le hle (mem_owned_user (List.getElem_mem hi)), ?_⟩
  unfold copyOf
  rw [he]
  rfl

/-- The two page tables of a process, and what it has besides, are its image. -/
theorem Pair.image (im : Image) (h : Pair board m₀ procIdx (usrMap board im.tf im.us) (kernMap (some im.stack) im.us) im.upt im.kpt
    (userPages im.us + ((im.stack, .stack) ::ₘ (im.tf, .trapframe) ::ₘ R)) m)
    (hrow : ∀ j, j ∉ procIdx → m.heap im.kpt j = m₀.heap board.kernelPagetable j) :
    Fit board m₀ m im ∧ Books board m₀ (im.owned m + R) m := by
  refine ⟨⟨h.user, h.kern, hrow⟩, h.books.congr ?_⟩
  unfold Image.owned Image.pages
  rw [add_assoc, add_assoc, add_assoc, Multiset.cons_add, Multiset.singleton_add]

/-- `uvmcopy`, from the pages of `p` to those of a process that has none yet. -/
theorem ends_uvmcopy_image {im parent : Image} (hm : Stocked board m₀) (h : Held board m₀ s T) (hj : T j = some im) (hp : T p = some parent)
    (hne : p ≠ j) (hbare : im.us = []) :
    (uvmcopy board parent.upt im.upt im.kpt (s.procs p).sz).Ends (Sound board) E s.ram fun r m' =>
      Same (rest s.ram T j) s.ram m' ∧
        ((r = -1 ∧ Fit board m₀ m' im ∧ Books board m₀ (im.owned m' + rest s.ram T j) m' ∧ s.ram.free.length < 5 * parent.us.length) ∨
          (r = 0 ∧ ∃ new, new.length = parent.us.length ∧ Fit board m₀ m' { im with us := new } ∧
            Books board m₀ (({ im with us := new } : Image).owned m' + rest s.ram T j) m' ∧
            ∀ (v : Nat) (e e' : Pte), new[v]? = some e → parent.us[v]? = some e' →
              e.flags = e'.flags ∧ m'.byte e.page = s.ram.byte e'.page)) := by
  obtain ⟨hsh, hfit, -⟩ := h.image hp
  obtain ⟨-, hfit', hb⟩ := h.image hj
  have hfew : parent.us.length ≤ 0x5E0 := by
    rw [← hsh.size]
    exact (h.space hp hm |>.small hm).1
  have hle : parent.owned s.ram ≤ rest s.ram T j := by
    have hle := owned_le_rest s.ram T hne
    rwa [hp, owned_some] at hle
  have hle' : rest s.ram T j ≤ (im.stack, Use.stack) ::ₘ (im.tf, .trapframe) ::ₘ rest s.ram T j :=
    (Multiset.le_cons_self _ _).trans (Multiset.le_cons_self _ _)
  have htabs : tabs (pagesOf s.ram Finset.univ parent.upt) ≤ parent.owned s.ram := Multiset.le_add_right _ _
  have hpair : Pair board m₀ procIdx (usrMap board im.tf []) (kernMap (some im.stack) []) im.upt im.kpt
      ((im.stack, .stack) ::ₘ (im.tf, .trapframe) ::ₘ rest s.ram T j) s.ram := by
    rw [hbare, userPages_nil, zero_add] at hb
    rw [← hbare]
    exact ⟨hfit'.user, hfit'.kern, hb⟩
  have hK : usrIdx ⊆ procIdx := by decide
  refine (ends_uvmcopy hm (sound_allows hm) trivial hK (usrMap_noUser board im.tf []) (kernMap_noUser (some im.stack) []) hfit.user
    ((htabs.trans hle).trans hle') (copy_source hsh (by omega) (hle.trans hle')) hpair).imp fun r m' hr => ?_
  obtain ⟨hedit, hr⟩ := hr
  have hrow : ∀ i, i ∉ procIdx → m'.heap im.kpt i = m₀.heap board.kernelPagetable i :=
    fun i hi => (hedit.row i hi).trans (hfit'.row i hi)
  refine ⟨hedit.same.tail.tail, ?_⟩
  obtain ⟨rfl, hback, hshort⟩ | ⟨rfl, new, hlen, hmapped⟩ := hr
  · obtain ⟨hfit'', hb''⟩ := Pair.image im (by rw [hbare, userPages_nil, zero_add]; exact hback) hrow
    rw [hsh.size] at hshort
    exact .inl ⟨rfl, hfit'', hb'', hshort⟩
  · rw [hsh.size] at hlen
    have hpair' := hmapped.pair
    have hu : mapAll (usrMap board im.tf []) 0 new = usrMap board im.tf new :=
      usrMap_append board im.tf (by rw [List.length_nil]; omega)
    have hk : mapAll (kernMap (some im.stack) []) 0 (new.map Pte.kern) = kernMap (some im.stack) new :=
      kernMap_append (some im.stack) (by rw [List.length_nil]; omega)
    rw [hu, hk] at hpair'
    obtain ⟨hfit'', hb''⟩ := Pair.image { im with us := new } hpair' hrow
    refine .inr ⟨rfl, new, hlen, hfit'', hb'', fun v e e' he he' => ?_⟩
    have hv := (List.getElem?_eq_some_iff.mp he').1
    have hcopy : copyOf (usrMap board parent.tf parent.us) s.ram v = (e'.flags, s.ram.byte e'.page) := by
      unfold copyOf
      rw [usrMap, if_pos (by omega), he']
      rfl
    have hwant := (hmapped.filled v e he).trans hcopy
    exact ⟨congrArg Prod.fst hwant, congrArg Prod.snd hwant⟩

/-- A page that is written twice. -/
theorem write_write (p : Page) (b : Nat → Byte) (f : (Nat → Byte) → Nat → Byte) :
    (m.write p b).write p (f ((m.write p b).byte p)) = m.write p (f b) := by
  rw [Ram.write_byte]
  unfold Ram.write
  rw [Function.update_idem]

/-- What is written to the trapframe changes nothing else of an image. -/
theorem Image.write_trapframe (im : Image) (hm : Stocked board m₀) (hfit : Fit board m₀ m im) (hb : Books board m₀ (im.owned m + R) m)
    (b : Nat → Byte) :
    Fit board m₀ (m.write im.tf b) im ∧ Books board m₀ (im.owned (m.write im.tf b) + R) (m.write im.tf b) ∧
      Same (userPages im.us + R) m (m.write im.tf b) := by
  have hown : im.owned m + R = (im.tf, .trapframe) ::ₘ (tabs (pagesOf m Finset.univ im.upt) +
      (tabs (pagesOf m procIdx im.kpt) + ((im.stack, .stack) ::ₘ (userPages im.us + R)))) := by
    unfold Image.owned Image.pages
    simp only [← Multiset.singleton_add]
    abel
  obtain ⟨hb', hs⟩ := (hb.congr hown).write hm b
  have hu := hs.left
  have hk := hs.right.left
  refine ⟨⟨hfit.user.same hu, hfit.kern.same hk, fun j hj => ?_⟩, hb'.congr ?_, hs.right.right.tail⟩
  · rw [hk.tabs_heap (root_mem_pagesOf _ _ _)]
    exact hfit.row j hj
  · rw [← hown]
    unfold Image.owned
    rw [hu.pagesOf, hk.pagesOf]

theorem comes_fork {proc : List ι} {parent : Image} (hm : Booted board m₀) (h : Held board m₀ s T)
    (hfree : ∀ q, (s.procs q).state = .unused → T q = none) (hp : T p = some parent)
    (hE : (∃ q ∈ proc, (s.procs q).state = .unused) → Strands s.ram.free.length → E unmapPanic) :
    Comes board E (fork board proc p) s fun r s' =>
      (r = -1 ∧ ((∀ q ∈ proc, (s.procs q).state ≠ .unused) ∧ s' = s ∨
        s.ram.free.length < 8 + 5 * parent.us.length ∧ ∃ j ∈ proc, (s.procs j).state = .unused ∧ Dropped board m₀ T j s s')) ∨
      ∃ j child, r = s.nextpid ∧ j ∈ proc ∧ (s.procs j).state = .unused ∧ Forked board m₀ T p j parent child s s' := by
  unfold fork
  apply (comes_allocproc hm h hfree proc hE).bind
  intro r s₁ hr
  obtain ⟨rfl, ⟨hall, rfl⟩ | ⟨hlt, j, hj, hu, hd⟩⟩ | ⟨j, im, rfl, hj, hu, -, hst, htaken⟩ := hr
  · exact .inl ⟨rfl, .inl ⟨hall, rfl⟩⟩
  · exact .inl ⟨rfl, .inr ⟨by omega, j, hj, hu, hd⟩⟩
  have hTj := hfree j hu
  have hne : p ≠ j := by
    intro he
    rw [← he, hp] at hTj
    cases hTj
  have hp₁ : Function.update T j (some im) p = some parent := by rw [Function.update_of_ne hne, hp]
  have hj₁ : Function.update T j (some im) j = some im := Function.update_self _ _ _
  obtain ⟨hshp, -, -⟩ := hst.held.image hp₁
  obtain ⟨hshj, -, -⟩ := hst.held.image hj₁
  have hrest : rest s₁.ram (Function.update T j (some im)) j = rest s.ram T j := by
    rw [rest_update]
    refine h.rest_eq ?_
    rw [← sum_vacant s.ram hTj]
    exact hst.same
  have hsame : Same (rest s.ram T j) s.ram s₁.ram := by
    rw [← sum_vacant s.ram hTj]
    exact hst.same
  have hself : s₁.procs j = { s.procs j with
      pid := s.nextpid, trapframe := some im.tf, pagetable := some im.upt, kpagetable := some im.kpt } := by
    rw [hst.procs, Function.update_self]
  have hparent : s₁.procs p = s.procs p := by rw [hst.procs, Function.update_of_ne hne]
  dsimp only
  apply comes_look
  apply (comes_pagetables hshp.pagetable hshp.kpagetable).bind
  intro _ s₂ hs₂
  obtain ⟨rfl, rfl⟩ := hs₂
  apply (comes_pagetables hshj.pagetable hshj.kpagetable).bind
  intro _ s₃ hs₃
  obtain ⟨rfl, rfl⟩ := hs₃
  refine comes_vm (ends_uvmcopy_image hm.stocked hst.held hj₁ hp₁ hne hst.bare) fun r m' hr => ?_
  rw [hrest] at hr
  obtain ⟨hs', ⟨rfl, hfit, hb, hshort⟩ | ⟨rfl, new, hlen, hfit, hb, hfill⟩⟩ := hr
  · -- the process is freed again
    rw [if_pos (by decide)]
    refine (comes_freeproc (s := { s₃ with ram := m' }) hm hshj hfit hb).bind fun _ s' hs'' => ?_
    obtain ⟨m'', rfl, hb'', hs''⟩ := hs''
    refine .inl ⟨rfl, .inr ⟨by omega, j, hj, hu, ?_⟩⟩
    have hprocs : Function.update s₃.procs j (s₃.procs j).gone = Function.update s.procs j (s₃.procs j).gone := by
      rw [hst.procs, Function.update_idem]
    show Dropped board m₀ T j s ⟨m'', Function.update s₃.procs j (s₃.procs j).gone, s₃.nextpid, s₃.fs⟩
    rw [hprocs, hst.fs]
    exact Dropped.of_rest h hTj hb'' ((hsame.trans hs').trans hs'') ⟨rfl, rfl, rfl, rfl⟩ rfl
  · rw [if_neg (by decide)]
    simp only [hshp.trapframe, hshj.trapframe, deref, Prog.pure_eq, Prog.ret_bind]
    refine comes_vm_at (P := fun _ m'' => m'' = m'.write im.tf (overwrite 0 tfSize (m'.byte parent.tf) (m'.byte im.tf)))
      (Prog.Ends.change_last trivial rfl) fun _ m₁ hm₁ => ?_
    refine comes_vm_at (P := fun _ m'' => m'' = m₁.write im.tf (putWord64 tfA0 0 (m₁.byte im.tf)))
      (Prog.Ends.change_last trivial rfl) fun _ m₂ hm₂ => ?_
    rw [hm₁, write_write] at hm₂
    obtain ⟨hfit', hb', hs''⟩ := Image.write_trapframe { im with us := new } hm.stocked hfit hb
      (putWord64 tfA0 0 (overwrite 0 tfSize (m'.byte parent.tf) (m'.byte im.tf)))
    rw [← hm₂] at hfit' hb' hs''
    have hkept : Same (rest s.ram T j) s.ram m₂ := (hsame.trans hs').trans hs''.right
    have hparent' : parent.owned s.ram ≤ rest s.ram T j := by
      have hle := owned_le_rest s.ram T hne
      rwa [hp, owned_some] at hle
    have hpage : ∀ (v : Nat) (e e' : Pte), new[v]? = some e → parent.us[v]? = some e' →
        e.flags = e'.flags ∧ m₂.byte e.page = s.ram.byte e'.page := by
      intro v e e' he he'
      obtain ⟨hflags, hbyte⟩ := hfill v e e' he he'
      refine ⟨hflags, ?_⟩
      rw [hs''.left.byte _ (mem_userPages (List.mem_of_getElem? he))]
      exact hbyte.trans (hsame.byte _ (Multiset.mem_of_le hparent' (mem_owned_user (List.mem_of_getElem? he'))))
    have htf : m'.byte parent.tf = s.ram.byte parent.tf :=
      (hsame.trans hs').byte _ (Multiset.mem_of_le hparent' (mem_owned_trapframe s.ram parent))
    have hothers : ∀ q, q ≠ j → ((⟨m₂, s₃.procs, s₃.nextpid, s₃.fs⟩ : Sys ι φ ε).setProc j ((s₃.procs p).inherit p)).procs q = s.procs q := by
      intro q hq
      rw [setProc_ne _ _ _ hq]
      show s₃.procs q = s.procs q
      rw [hst.procs, Function.update_of_ne hq]
    apply comes_setProc
    refine .inr ⟨j, { im with us := new }, ?_, hj, hu, ⟨?_, ?_, ⟨hlen, hpage, m'.byte im.tf, ?_⟩, ⟨s₃.procs j, ?_, ?_⟩, fun q hq => ?_⟩⟩
    · show (s₃.procs j).pid = s.nextpid
      rw [hself]
    · refine h.update hothers hkept (fun im' him => ?_) (fun hc => absurd hc (Option.some_ne_none _)) hb'
      cases him
      rw [setProc_same]
      refine ⟨⟨hshj.pagetable, hshj.kpagetable, hshj.trapframe, hshp.size.trans hlen.symm, fun v e he => ?_⟩, hfit'⟩
      have hv := (List.getElem?_eq_some_iff.mp he).1
      have he' : parent.us[v]? = some parent.us[v] := List.getElem?_eq_getElem (hlen ▸ hv)
      rw [(hpage v e _ he he').1]
      exact hshp.flags v _ he'
    · rw [sum_vacant s.ram hTj]
      exact hkept
    · show m₂.byte im.tf = _
      rw [hm₂, Ram.write_byte, htf]
    · rw [setProc_same, hparent]
    · rw [hself]
    · exact hothers q hq

end Farron.Memory
