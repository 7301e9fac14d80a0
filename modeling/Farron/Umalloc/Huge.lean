import Farron.Memory.AllOrNothing
import Farron.Memory.Sbrk
import Farron.Umalloc.Runs

/-! Requests of any size, with the kernel below.

Here the system call is the kernel's, on the memory of process `p`, and what it was asked and
what it did is written down (`Call`). A request comes to what it should (`Clean`) unless it has
to ask for 2^27 header units or more: the amount is passed as an `int`, in which these are
negative, nothing, or one unit. -/
namespace Farron.Umalloc
open Chains Spans Memory

/-- A call of `sbrk`: the amount and the answer, and the size of the process before and after. -/
structure Call where
  amount : Int
  answer : Option Nat
  before : Nat
  after : Nat

/-- The kernel, with the calls made so far, the last one first. -/
structure Kern (ι φ ε : Type) where
  sys : Sys ι φ ε
  calls : List Call

variable {ι φ ε : Type} [DecidableEq ι]

def Kern.size (s : Kern ι φ ε) (p : ι) : Nat := (s.sys.procs p).sz

def sbrk (board : Board) (p : ι) (n : Int) (s : Kern ι φ ε) : Option (Option Nat × Kern ι φ ε) :=
  match (sysSbrk board p n).run s.sys with
  | .done r sys =>
    let answer := if r = minusOne then none else some r
    some (answer, ⟨sys, ⟨n, answer, s.size p, (sys.procs p).sz⟩ :: s.calls⟩)
  | _ => none

/-- The heap is in order, in the first `sz` bytes of memory. -/
structure Inside (base sz : Nat) (h : Heap) : Prop where
  null : 0 < base
  static : base + headerSize ≤ sz
  heap : h.freep = 0 ∨ ∃ ring used got, Inv base 1 h ring used got ∧ ∀ r ∈ got, r.1 + r.2 ≤ sz

/-- A block on the free list has `n` units or more. -/
def Heap.Fits (h : Heap) (n : Nat) : Prop := h.freep ≠ 0 ∧ ∃ k, n ≤ h.size (h.ptr^[k] h.freep)

/-- A request fails with nothing changed, or is given a block in the memory of the process. The memory does not shrink; the
system call is asked for what is needed, and if it does not fail has added it. -/
structure Clean (board : Board) (m₀ : Ram) (base : Nat) (p : ι) (nbytes : Nat) (h : Heap) (s : Kern ι φ ε) (ap : Nat) (h' : Heap)
    (s' : Kern ι φ ε) : Prop where
  fails : ap = 0 → h' = h.start base ∧ s'.size p = s.size p
  block : ap ≠ 0 → base + headerSize ≤ ap ∧ ap + nbytes ≤ s'.size p
  grows : s.size p ≤ s'.size p
  asks : ∃ new, s'.calls = new ++ s.calls ∧ ∀ c ∈ new, c.amount = (headerSize * asked (units nbytes) : Nat) ∧ 0 < c.amount ∧
    (c.answer ≠ none → (c.after : Int) = c.before + c.amount)
  heap : Inside base (s'.size p) h'
  space : Space board m₀ p s'.sys

def HugeMeets (board : Board) (m₀ : Ram) (base : Nat) (p : ι) (nbytes : Nat) (h : Heap) (s : Kern ι φ ε) : Prop :=
  ∃ ap h' s', Returns (fun rounds => malloc base (sbrk board p) rounds h s nbytes) (ap, h', s') ∧
    Clean board m₀ base p nbytes h s ap h' s'

variable {board : Board} {m₀ : Ram} {base nbytes n sz : Nat} {p : ι} {h h' : Heap} {s s' : Kern ι φ ε}
  {ring used : List Block} {got : List Span}

theorem int32_lt (n : Nat) : int32 n < 2 ^ 31 := by
  unfold int32
  split <;> omega

/-! ### The free list -/

theorem Inside.start (hh : Inside base sz h) (hpos : 0 < n) :
    ∃ ring used got, Inv base 1 (h.start base) ring used got ∧ (∀ r ∈ got, r.1 + r.2 ≤ sz) ∧
      (h.Fits n ↔ ∃ b ∈ ring, n ≤ b.units) := by
  rcases hh.heap with hfreep | ⟨ring, used, got, hi, hgot⟩
  · refine ⟨[root base], [], [], .start hh.null hfreep, by simp, ?_⟩
    simpa [Heap.Fits, hfreep] using hpos.ne'
  · rw [hi.start_of_ne]
    refine ⟨ring, used, got, hi, hgot, ?_⟩
    constructor
    · rintro ⟨-, k, hk⟩
      obtain ⟨b, hb, haddr⟩ := List.mem_map.mp (hi.circle.steps_mem hi.freep k)
      rw [← haddr, hi.sizes b (by simp [hb])] at hk
      exact ⟨b, hb, hk⟩
    · rintro ⟨b, hb, hle⟩
      obtain ⟨l, hpath, hperm⟩ := hi.circle.path hi.freep
      obtain ⟨k, hk⟩ := hpath.steps (hperm.mem_iff.mpr (List.mem_map_of_mem hb))
      refine ⟨hi.freep_ne, k, ?_⟩
      rw [hk, hi.sizes b (by simp [hb])]
      exact hle

/-- A block in use is in the memory obtained. -/
theorem Took.inside {ap : Nat} (ht : Took base 1 (units nbytes) used got ap h) (hgot : ∀ r ∈ got, r.1 + r.2 ≤ sz)
    (huint : nbytes < 2 ^ 32) : ap ≠ 0 ∧ base + headerSize ≤ ap ∧ ap + nbytes ≤ sz := by
  obtain ⟨b, ring, hb, rfl, hi⟩ := ht
  have hproper := hi.proper_used b (by simp)
  have habove := hproper.above
  have hunits := units_of_lt huint
  have hend : b.after ≤ sz := by
    -- its last byte
    have hhit : 0 < hits got (b.after - 1) := by
      rw [← hi.all]
      refine hits_pos_iff.mpr ⟨b.span, List.mem_map_of_mem (by simp), ?_⟩
      simp only [Span.Holds, Block.span, Block.after, hb, headerSize_eq]
      omega
    obtain ⟨r, hr, hholds⟩ := hits_pos_iff.mp hhit
    have hle := hgot r hr
    have hlt := hholds.2
    omega
  simp only [Block.after, hb, headerSize_eq] at hend habove ⊢
  omega

theorem Took.heap {ap : Nat} (ht : Took base 1 n used got ap h) (hgot : ∀ r ∈ got, r.1 + r.2 ≤ sz)
    (hstatic : base + headerSize ≤ sz) : Inside base sz h := by
  obtain ⟨b, ring, -, -, hi⟩ := ht
  exact ⟨hi.null, hstatic, .inr ⟨ring, _, got, hi, hgot⟩⟩

/-! ### The system call -/

/-- What the kernel gives is fresh memory at the end of the process, and the process has it from then on. -/
theorem sbrk_spec (hm : Stocked board m₀) (hs : Space board m₀ p s.sys) (hstatic : base + headerSize ≤ s.size p)
    (hgot : ∀ r ∈ got, r.1 + r.2 ≤ s.size p) (hpos : 0 < n) (hlt : n < 2 ^ 31) :
    ∃ r s' got', sbrk board p n s = some (r, s') ∧ Answer base 1 got n r got' ∧ (∀ r ∈ got', r.1 + r.2 ≤ s'.size p) ∧
      Space board m₀ p s'.sys ∧ s.size p ≤ s'.size p ∧ (r = none → s'.size p = s.size p) ∧
      ∃ c, s'.calls = c :: s.calls ∧ c.amount = n ∧ (c.answer ≠ none → (c.after : Int) = c.before + c.amount) := by
  have hsz := (hs.small hm).2
  obtain ⟨r, sys, hrun, hspace, ⟨rfl, hsame⟩ | ⟨rfl, hne, hgrown⟩⟩ := run_sysSbrk hm hs hpos hlt
  · refine ⟨none, ⟨sys, ⟨n, none, s.size p, (sys.procs p).sz⟩ :: s.calls⟩, got, ?_, .fails, ?_, hspace, ?_, fun _ => hsame, _, rfl, rfl, ?_⟩
    · simp only [sbrk, hrun, if_true]
    · intro r hr
      show r.1 + r.2 ≤ (sys.procs p).sz
      rw [hsame]
      exact hgot r hr
    · exact Nat.le_of_eq hsame.symm
    · exact fun h => absurd rfl h
  · have hbounded : s.size p + n ≤ 2 ^ 36 := by
      unfold Kern.size
      omega
    refine ⟨some (s.size p), ⟨sys, ⟨n, some (s.size p), s.size p, (sys.procs p).sz⟩ :: s.calls⟩, (s.size p, n) :: got, ?_,
      .grows _ hstatic (Nat.mod_one _) hgot hbounded, ?_, hspace, ?_, nofun, _, rfl, rfl, fun _ => ?_⟩
    · simp only [sbrk, hrun, if_neg hne]
      rfl
    · intro r hr
      show r.1 + r.2 ≤ (sys.procs p).sz
      rw [hgrown]
      rcases List.mem_cons.mp hr with rfl | hr
      · exact Nat.le_refl _
      · exact Nat.le_trans (hgot r hr) (Nat.le_add_right _ _)
    · show (s.sys.procs p).sz ≤ (sys.procs p).sz
      omega
    · show ((sys.procs p).sz : Int) = (s.sys.procs p).sz + n
      omega

theorem sbrk_calls {a : Int} {r : Option Nat} (hcall : sbrk board p a s = some (r, s')) :
    ∃ c, s'.calls = c :: s.calls ∧ c.amount = a := by
  unfold sbrk at hcall
  split at hcall
  · cases hcall
    exact ⟨_, rfl, rfl⟩
  · cases hcall

/-- The first call is for what is asked for, and it stays written down. -/
theorem grow_calls {rounds ap : Nat} (hgrow : grow (sbrk board p) n rounds h s = some (ap, h', s')) :
    ∃ c pre, s'.calls = pre ++ c :: s.calls ∧ c.amount = int32 (asked n * headerSize) := by
  obtain ⟨⟨q, h₁, s₁⟩, hmore, hrest⟩ := Option.bind_eq_some_iff.mp hgrow
  obtain ⟨r, hcall⟩ := morecore_calls hmore
  obtain ⟨c, hcalls, hamount⟩ := sbrk_calls hcall
  refine ⟨c, ?_⟩
  have hend : ∃ pre, s'.calls = pre ++ c :: s.calls := by
    have hrest : (if q = 0 then some (0, h₁, s₁) else search (sbrk board p) n rounds q (h₁.ptr q) h₁ s₁) = some (ap, h', s') := hrest
    split at hrest
    · cases hrest
      exact ⟨[], hcalls⟩
    · refine search_keeps (P := fun t : Kern ι φ ε => ∃ pre, t.calls = pre ++ c :: s.calls) ?_ ⟨[], hcalls⟩ hrest
      rintro a t r t' hstep ⟨pre, hpre⟩
      obtain ⟨d, hd, -⟩ := sbrk_calls hstep
      exact ⟨d :: pre, by rw [hd, hpre, List.cons_append]⟩
  obtain ⟨pre, hpre⟩ := hend
  exact ⟨pre, hpre, hamount⟩

/-! ### Requests -/

/-- A block of the free list is large enough. -/
theorem meets_of_fits (hs : Space board m₀ p s.sys) (hh : Inside base (s.size p) h) (huint : nbytes < 2 ^ 32)
    (hfits : h.Fits (units nbytes)) : HugeMeets board m₀ base p nbytes h s := by
  obtain ⟨ring, used, got, hi, hgot, hiff⟩ := hh.start (units_pos huint)
  obtain ⟨b, hb, hle⟩ := hiff.mp hfits
  rcases hi.search (sbrk board p) s (Nat.one_dvd _) (units_pos huint) with ⟨-, ap, h', htook, hrun⟩ | ⟨hsmall, -⟩
  · obtain ⟨hnz, hblock⟩ := htook.inside hgot huint
    refine ⟨ap, h', s, ⟨ring.length, hrun⟩, fun h0 => absurd h0 hnz, fun _ => hblock, Nat.le_refl _, ⟨[], rfl, by simp⟩, ?_, hs⟩
    exact htook.heap hgot hh.static
  · exact absurd (hsmall b hb) (Nat.not_lt.mpr hle)

/-- The amount that is needed is one that an `int` holds. -/
theorem meets_of_few (hm : Stocked board m₀) (hs : Space board m₀ p s.sys) (hh : Inside base (s.size p) h)
    (huint : nbytes < 2 ^ 32) (hfew : units nbytes < 2 ^ 27) : HugeMeets board m₀ base p nbytes h s := by
  have hpos := units_pos huint
  obtain ⟨ring, used, got, hi, hgot, hiff⟩ := hh.start hpos
  rcases hi.search (sbrk board p) s (Nat.one_dvd _) hpos with ⟨⟨b, hb, hle⟩, -⟩ | ⟨-, hrun⟩
  · exact meets_of_fits hs hh huint (hiff.mpr ⟨b, hb, hle⟩)
  · obtain ⟨hamount, hint, hint32⟩ := asked_amount hfew
    obtain ⟨r, s', got', hcall, hanswer, hgot', hspace, hgrown, hsame, c, hcalls, hc, hadded⟩ :=
      sbrk_spec hm hs hh.static hgot hamount hint
    have hcall' : sbrk board p (int32 (asked (units nbytes) * headerSize)) s = some (r, s') := by
      rw [hint32]
      exact hcall
    have hasks : ∃ new, s'.calls = new ++ s.calls ∧ ∀ c ∈ new, c.amount = (headerSize * asked (units nbytes) : Nat) ∧ 0 < c.amount ∧
        (c.answer ≠ none → (c.after : Int) = c.before + c.amount) := by
      refine ⟨[c], hcalls, ?_⟩
      simp only [List.mem_singleton, forall_eq, hc]
      exact ⟨trivial, by omega, fun hne => by rw [hadded hne, hc]⟩
    rcases hi.grow (Nat.one_dvd _) hpos hcall' hanswer with ⟨hnone, -, hgrow⟩ | ⟨ap, h', k, htook, hgrow⟩
    · refine ⟨0, _, s', Returns.of_grow (k := 0) hrun fun rounds _ => hgrow rounds, fun _ => ⟨rfl, hsame hnone⟩, fun hne => absurd rfl hne,
        hgrown, hasks, ?_, hspace⟩
      rw [hsame hnone]
      exact ⟨hh.null, hh.static, .inr ⟨ring, used, got, hi, hgot⟩⟩
    · obtain ⟨hnz, hblock⟩ := htook.inside hgot' huint
      refine ⟨ap, h', s', Returns.of_grow hrun hgrow, fun h0 => absurd h0 hnz, fun _ => hblock, hgrown, hasks, ?_, hspace⟩
      exact htook.heap hgot' (Nat.le_trans hh.static hgrown)

/-- Otherwise the system call is asked for something else. -/
theorem not_meets_of_huge (hh : Inside base (s.size p) h) (huint : nbytes < 2 ^ 32) (hfits : ¬ h.Fits (units nbytes))
    (hhuge : 2 ^ 27 ≤ units nbytes) : ¬ HugeMeets board m₀ base p nbytes h s := by
  rintro ⟨ap, h', s', ⟨k, hret⟩, hclean⟩
  obtain ⟨ring, used, got, hi, hgot, hiff⟩ := hh.start (units_pos huint)
  rcases hi.search (sbrk board p) s (Nat.one_dvd _) (units_pos huint) with ⟨⟨b, hb, hle⟩, -⟩ | ⟨-, hrun⟩
  · exact hfits (hiff.mpr ⟨b, hb, hle⟩)
  · have hgrow : grow (sbrk board p) (units nbytes) k (h.start base) s = some (ap, h', s') := by
      rw [← hrun]
      exact hret _ (Nat.le_add_right k _)
    obtain ⟨c, pre, hcalls, hamount⟩ : ∃ c pre, s'.calls = pre ++ c :: s.calls ∧ c.amount = int32 (asked (units nbytes) * headerSize) :=
      grow_calls hgrow
    obtain ⟨new, hnew, hall⟩ := hclean.asks
    have hmem : c ∈ new := by
      rw [hcalls, List.append_cons] at hnew
      rw [← List.append_cancel_right hnew]
      simp
    have hbad := (hall c hmem).1
    have hlt := int32_lt (asked (units nbytes) * headerSize)
    have hle := (le_asked (units nbytes)).1
    rw [hamount] at hbad
    simp only [headerSize_eq] at hbad hlt
    omega

/-- A request comes to what it should where a block of the free list is large enough, or fewer than 2^27 units are needed. -/
theorem hugeMeets_iff (hm : Stocked board m₀) (hs : Space board m₀ p s.sys) (hh : Inside base (s.size p) h)
    (huint : nbytes < 2 ^ 32) : HugeMeets board m₀ base p nbytes h s ↔ h.Fits (units nbytes) ∨ units nbytes < 2 ^ 27 := by
  constructor
  · intro hmeets
    by_contra hno
    rw [not_or, Nat.not_lt] at hno
    exact not_meets_of_huge hh huint hno.1 hno.2 hmeets
  · rintro (hfits | hfew)
    · exact meets_of_fits hs hh huint hfits
    · exact meets_of_few hm hs hh huint hfew

/-! ### A process of one page -/

/-- It has its page tables and nothing in them. -/
def bareProc : Memory.Proc Unit Unit := ⟨.running, none, false, 0, 1, 0, some 0x80020, some 0x80021, none, fun _ => none, none, [], none⟩

theorem onePage : ∃ s : Sys Unit Unit Unit, Space bareBoard bare () s ∧ (s.procs ()).sz = pgsize := by
  have hrow : ∀ (S : Finset (Fin 512)) (q : Page), ∀ i ∈ S, forked.heap q i = .empty := fun _ _ i _ => Ram.heap_zero _ rfl i
  have hpair : Pair bareBoard bare procIdx (fun _ => none) (fun _ => none) 0x80020 0x80021
      (userPages [] + (tabs {0x80022} + tabs {0x80023})) forked := by
    refine Pair.rest ⟨forked_pair.user, Table.blank (hrow _ _), ?_⟩ (zero_add _).symm
    have hbooks := forked_pair.books
    rwa [pagesOf_blank (hrow usrIdx _), ← pagesOf_blank (hrow procIdx _)] at hbooks
  have hgrow : (uvmalloc bareBoard 0x80020 0x80021 0 pgsize).Ends (Memory.Sound bareBoard) (fun _ => False) forked _ :=
    ends_uvmalloc bare_stocked (sound_allows bare_stocked) trivial (by decide) (fun _ _ _ => rfl) (fun _ _ _ => rfl)
      (by decide : npages 0 = 0) (Nat.zero_le _) (by decide) hpair
  obtain ⟨r, m, -, -, ⟨-, -, hfree⟩ | ⟨-, new, hlen, hmapped⟩⟩ := hgrow.returns
  · exact absurd hfree (by decide)
  · have hspace : Space bareBoard bare () (({ ram := m, procs := fun _ => bareProc, nextpid := 2, fs := () } : Sys Unit Unit Unit).setProc ()
        (Proc.resize pgsize)) :=
      Space.grown (s := ⟨forked, fun _ => bareProc, 2, ()⟩) rfl rfl rfl (fun v (hv : v < npages 0) => absurd hv (Nat.not_lt_zero v)) (fun _ _ _ => rfl)
        (fun _ _ _ => rfl) hlen (by decide : npages 0 ≤ npages pgsize) hmapped
    exact ⟨_, hspace, rfl⟩

/-- An amount of -16 is no failure: the process loses 16 bytes, and the answer is where it ended. -/
theorem sbrk_shrinks {s : Kern Unit Unit Unit} (hs : Space bareBoard bare () s.sys) (hsize : s.size () = pgsize) :
    ∃ s', sbrk bareBoard () (-16) s = some (some pgsize, s') ∧ s'.size () = pgsize - 16 := by
  obtain ⟨u, k, f, g, us, R, hu, hk, -⟩ := hs
  have hsz : (s.sys.procs ()).sz = 4096 := hsize
  have hends : Memory.Comes bareBoard (fun _ => False) (sysSbrk bareBoard () (-16)) s.sys fun r t => r = 4096 ∧ (t.procs ()).sz = 4080 := by
    unfold sysSbrk
    apply comes_look
    have hgrow : Memory.Comes bareBoard (fun _ => False) (growproc bareBoard () (-16)) s.sys fun r t => r = 0 ∧ (t.procs ()).sz = 4080 := by
      unfold growproc
      apply comes_look
      apply (comes_pagetables hu hk).bind
      rintro _ _ ⟨rfl, rfl⟩
      simp only [hsz]
      refine comes_vm (Q := fun r _ => r = 4080) rfl fun r m hr => ?_
      subst hr
      exact comes_setProc ⟨rfl, rfl⟩
    apply hgrow.bind
    rintro r t ⟨rfl, ht⟩
    rw [hsz]
    exact ⟨rfl, ht⟩
  obtain ⟨r, t, hrun, rfl, ht⟩ := hends.returns
  refine ⟨⟨t, ⟨-16, some 4096, 4096, 4080⟩ :: s.calls⟩, ?_, ht⟩
  simp only [sbrk, hrun, Kern.size, ht, hsz]
  rfl

/-- A heap that no one has used. -/
def noHeap : Heap := ⟨fun _ => 0, fun _ => 0, 0⟩

theorem noHeap_inside : Inside 1024 pgsize noHeap := ⟨by decide, by decide, .inl rfl⟩

/-- 100 bytes are no trouble. -/
theorem hugeMeets_hundred : ∃ s : Kern Unit Unit Unit, HugeMeets bareBoard bare 1024 () 100 noHeap s := by
  obtain ⟨sys, hs, hsz⟩ := onePage
  have hsize : (⟨sys, []⟩ : Kern Unit Unit Unit).size () = pgsize := hsz
  exact ⟨⟨sys, []⟩, (hugeMeets_iff bare_stocked hs (by rw [hsize]; exact noHeap_inside) (by decide)).mpr (.inr (by decide))⟩

/-- 2^32 - 32 bytes are: the amount is -16, which shrinks the process. -/
theorem huge_shrinks : ∃ s : Kern Unit Unit Unit, Space bareBoard bare () s.sys ∧ Inside 1024 (s.size ()) noHeap ∧
    ¬ HugeMeets bareBoard bare 1024 () 4294967264 noHeap s ∧
    int32 (asked (units 4294967264) * headerSize) = -16 ∧
    ∃ s', sbrk bareBoard () (-16) s = some (some (s.size ()), s') ∧ s'.size () = s.size () - 16 := by
  obtain ⟨sys, hs, hsz⟩ := onePage
  have hsize : (⟨sys, []⟩ : Kern Unit Unit Unit).size () = pgsize := hsz
  have hh : Inside 1024 ((⟨sys, []⟩ : Kern Unit Unit Unit).size ()) noHeap := by
    rw [hsize]
    exact noHeap_inside
  refine ⟨⟨sys, []⟩, hs, hh, ?_, by decide, ?_⟩
  · exact not_meets_of_huge hh (by decide) (fun hfits => hfits.1 rfl) (by decide)
  · rw [hsize]
    exact sbrk_shrinks hs hsize

end Farron.Umalloc
