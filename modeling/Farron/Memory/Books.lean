import Farron.Memory.Vm
import Mathlib.Data.Fintype.Basic

/-! Who owns which page.

`Books` accounts for every page that the boot left on the free list: it is owned, by what it
was allocated for, or it is free. The pages of the boot's own page table never change. A
function is given the pages it works on next to the rest `R`, which it leaves alone
(`Same`); so the books say at once that nothing is lost, that nothing is freed twice, and
that what one function writes is not what another one relies on. -/
namespace Farron.Memory
open Resumption Radix

/-- The indices looked at: `S` in the root, all of them further down. -/
def within (S : Finset (Fin 512)) (level : Nat) : Finset (Fin 512) := if level = 2 then S else Finset.univ

/-- The pages of a page table, seen through the indices `S` of its root. Irreducible, for
its value is a sum over all entries. -/
@[irreducible] def pagesOf (m : Ram) (S : Finset (Fin 512)) (root : Page) : Multiset Page :=
  nodes (within S) m.heap 2 root

theorem pagesOf_eq (m : Ram) (S : Finset (Fin 512)) (root : Page) :
    pagesOf m S root = nodes (within S) m.heap 2 root := by
  unfold pagesOf
  rfl

theorem pagesOf_congr {m m' : Ram} {S : Finset (Fin 512)} {root : Page}
    (h : ∀ p ∈ pagesOf m S root, m'.heap p = m.heap p) : pagesOf m' S root = pagesOf m S root := by
  rw [pagesOf_eq, pagesOf_eq]
  apply nodes_congr
  intro p hp
  rw [← pagesOf_eq] at hp
  exact h p hp

theorem root_mem_pagesOf (m : Ram) (S : Finset (Fin 512)) (root : Page) : root ∈ pagesOf m S root := by
  rw [pagesOf_eq]
  exact mem_nodes_self _ _

variable (board : Board)

/-- The pages of the boot's page table. -/
def bootPages (m : Ram) : Multiset Page := pagesOf m Finset.univ board.kernelPagetable

/-- What is shown of every section: no free page is freed and no page of the boot's page
table, and the teardown of a kernel page table frees no user page. -/
def Sound : Label → Ram → Prop
  | .plain, _ => True
  | .kfree pa, m => pa ∉ m.free ∧ pa ∉ bootPages board m
  | .teardown pa, m => pa ∉ m.free ∧ pa ∉ bootPages board m ∧ m.use pa ≠ .user

/-- The entries of a root that map user addresses, `i < PX(2, MAXUVA)`. -/
def usrIdx : Finset (Fin 512) := {0, 1}

/-- The entry that maps the kernel stack. -/
def stackIdx : Fin 512 := px vkstack 2

/-- The entries that a process's kernel page table has for itself; it shares the others with
the boot's. -/
def procIdx : Finset (Fin 512) := insert stackIdx usrIdx

/-- The memory that the boot leaves: the kernel is loaded from `KERNBASE` on, every page after
it is free or belongs to the boot's page table, which maps nothing where the processes' differ
from it, and there is room for the first process. -/
structure Booted (m : Ram) : Prop where
  kernbase : 0x80020000 ≤ board.kernelEnd
  trampoline : board.trampoline * pgsize < phystop
  nodup : ((m.free : Multiset Page) + bootPages board m).Nodup
  managed : ∀ p, board.managed p ↔ p ∈ m.free ∨ p ∈ bootPages board m
  room : 13 ≤ m.free.length
  private_empty : ∀ i ∈ procIdx, m.heap board.kernelPagetable i = .empty

/-- What `kalloc` hands out: no page twice, none of the boot's page table, and only what `kfree`
takes back. -/
structure Stocked (m : Ram) : Prop where
  kernbase : 0x80020000 ≤ board.kernelEnd
  nodup : ((m.free : Multiset Page) + bootPages board m).Nodup
  managed : ∀ p ∈ m.free, board.managed p

variable {board} in
theorem Booted.stocked {m : Ram} (h : Booted board m) : Stocked board m :=
  ⟨h.kernbase, h.nodup, fun p hp => (h.managed p).mpr (.inl hp)⟩

/-- The pages `R` have kept their contents, and so have the kernel's own objects. -/
structure Same (R : Multiset (Page × Use)) (m m' : Ram) : Prop where
  byte : ∀ x ∈ R, m'.byte x.1 = m.byte x.1
  kern : m'.kern = m.kern

/-- `own` are the owned pages, with what they were allocated for; `m₀` is the memory that
the boot has left. -/
structure Books (m₀ : Ram) (own : Multiset (Page × Use)) (m : Ram) : Prop where
  pages : own.map Prod.fst + (m.free : Multiset Page) = m₀.free
  used : ∀ x ∈ own, m.use x.1 = x.2
  boot : ∀ p ∈ bootPages board m₀, m.byte p = m₀.byte p

/-- Page-table pages. -/
def tabs (N : Multiset Page) : Multiset (Page × Use) := N.map fun p => (p, .table)

@[simp] theorem tabs_zero : tabs 0 = 0 := rfl
@[simp] theorem tabs_singleton (p : Page) : tabs {p} = {(p, .table)} := rfl
@[simp] theorem tabs_cons (p : Page) (N : Multiset Page) : tabs (p ::ₘ N) = (p, .table) ::ₘ tabs N :=
  Multiset.map_cons _ p N
@[simp] theorem tabs_add (N N' : Multiset Page) : tabs (N + N') = tabs N + tabs N' := Multiset.map_add _ N N'

theorem mem_tabs {N : Multiset Page} {x : Page × Use} : x ∈ tabs N ↔ x.1 ∈ N ∧ x.2 = .table := by
  rw [tabs, Multiset.mem_map]
  constructor
  · intro h
    obtain ⟨p, hp, rfl⟩ := h
    exact ⟨hp, rfl⟩
  · intro h
    exact ⟨x.1, h.1, Prod.ext rfl h.2.symm⟩

variable {board} {m₀ m m' m'' : Ram} {R R' own own' : Multiset (Page × Use)} {p q : Page} {u : Use}

namespace Same

theorem refl (R : Multiset (Page × Use)) (m : Ram) : Same R m m := ⟨fun _ _ => rfl, rfl⟩

theorem trans (h : Same R m m') (h' : Same R m' m'') : Same R m m'' :=
  ⟨fun x hx => (h'.byte x hx).trans (h.byte x hx), h'.kern.trans h.kern⟩

theorem mono (h : Same R m m') (hR : R' ≤ R) : Same R' m m' :=
  ⟨fun x hx => h.byte x (Multiset.mem_of_le hR hx), h.kern⟩

theorem left (h : Same (R + R') m m') : Same R m m' := h.mono (Multiset.le_add_right R R')

theorem right (h : Same (R + R') m m') : Same R' m m' := h.mono (Multiset.le_add_left R' R)

theorem tail {x : Page × Use} (h : Same (x ::ₘ R) m m') : Same R m m' := h.mono (Multiset.le_cons_self R x)

theorem heap (h : Same R m m') (hp : (p, u) ∈ R) : m'.heap p = m.heap p := Ram.heap_congr (h.byte _ hp)

theorem tabs_heap {N : Multiset Page} (h : Same (tabs N) m m') (hp : p ∈ N) : m'.heap p = m.heap p :=
  h.heap (mem_tabs.mpr ⟨hp, rfl⟩)

/-- A page table all of whose pages are among the rest. -/
theorem pagesOf {S : Finset (Fin 512)} (h : Same (tabs (pagesOf m S p)) m m') :
    Memory.pagesOf m' S p = Memory.pagesOf m S p :=
  pagesOf_congr fun _ hx => h.tabs_heap hx

end Same

namespace Books

theorem congr (h : Books board m₀ own m) (he : own = own') : Books board m₀ own' m := he ▸ h

section Boot
variable (hm : Stocked board m₀)
include hm

theorem nodup (h : Books board m₀ own m) : (own.map Prod.fst + (m.free : Multiset Page)).Nodup := by
  rw [h.pages]
  exact (Multiset.nodup_add.mp hm.nodup).1

theorem managed (h : Books board m₀ own m) (hp : (p, u) ∈ own) : board.managed p := by
  apply hm.managed p
  rw [← Multiset.mem_coe, ← h.pages]
  exact Multiset.mem_add.mpr (.inl (Multiset.mem_map_of_mem Prod.fst hp))

/-- Neither an owned nor a free page belongs to the boot's page table. -/
theorem not_boot (h : Books board m₀ own m) (hp : p ∈ own.map Prod.fst + (m.free : Multiset Page)) :
    p ∉ bootPages board m₀ := by
  rw [h.pages] at hp
  exact Multiset.disjoint_left.mp (Multiset.nodup_add.mp hm.nodup).2.2 hp

theorem not_free (h : Books board m₀ own m) {x : Page × Use} (hx : x ∈ own) : x.1 ∉ m.free := fun hf =>
  Multiset.disjoint_left.mp (Multiset.nodup_add.mp (h.nodup hm)).2.2 (Multiset.mem_map_of_mem _ hx) hf

theorem ne (h : Books board m₀ ((p, u) ::ₘ R) m) {x : Page × Use} (hx : x ∈ R) : x.1 ≠ p := by
  have hn := (Multiset.nodup_add.mp (h.nodup hm)).1
  rw [Multiset.map_cons, Multiset.nodup_cons] at hn
  have hmem : x.1 ∈ R.map Prod.fst := Multiset.mem_map_of_mem Prod.fst hx
  exact fun he => hn.1 (he ▸ hmem)

theorem disjoint (h : Books board m₀ (own + own') m) {x y : Page × Use} (hx : x ∈ own) (hy : y ∈ own') : x.1 ≠ y.1 := by
  have hn := (Multiset.nodup_add.mp (h.nodup hm)).1
  rw [Multiset.map_add, Multiset.nodup_add] at hn
  exact fun he => Multiset.disjoint_left.mp hn.2.2 (Multiset.mem_map_of_mem _ hx) (he ▸ Multiset.mem_map_of_mem _ hy)

theorem nodup_tabs {N : Multiset Page} (h : Books board m₀ (tabs N + R) m) : N.Nodup := by
  have hn := (Multiset.nodup_add.mp (h.nodup hm)).1
  rw [Multiset.map_add, Multiset.nodup_add, tabs, Multiset.map_map] at hn
  have he : N.map (Prod.fst ∘ fun p => (p, Use.table)) = N := Multiset.map_id N
  rw [he] at hn
  exact hn.1

end Boot

/-- The pages of the boot's page table are always the same. -/
theorem bootPages_eq (h : Books board m₀ own m) : bootPages board m = bootPages board m₀ :=
  pagesOf_congr fun x hx => Ram.heap_congr (h.boot x hx)

theorem length (h : Books board m₀ own m) : own.card + m.free.length = m₀.free.length := by
  have hc := congrArg Multiset.card h.pages
  rwa [Multiset.card_add, Multiset.card_map, Multiset.coe_card, Multiset.coe_card] at hc

end Books

theorem lt_of_mul_lt_phystop {n : Nat} (h : n * pgsize < phystop) : n < 2 ^ 52 := by
  simp only [pgsize_eq, phystop] at h
  omega

theorem Board.managed.lt (h : board.managed p) : p < 2 ^ 52 := lt_of_mul_lt_phystop h.2

/-! ### The allocator keeps the books -/

/-- A page goes on the free list. -/
theorem Books.push (hm : Stocked board m₀) (h : Books board m₀ ((p, u) ::ₘ R) m) :
    Books board m₀ R (m.push p) ∧ Same R m (m.push p) := by
  have hp : (p, u) ∈ (p, u) ::ₘ R := Multiset.mem_cons_self _ _
  refine ⟨⟨?_, fun x hx => h.used x (Multiset.mem_cons_of_mem hx), fun x hx => ?_⟩,
    fun x hx => m.push_byte_ne (h.ne hm hx), rfl⟩
  · rw [← h.pages, Ram.push_free, ← Multiset.cons_coe, Multiset.map_cons, Multiset.add_cons, Multiset.cons_add]
  · rw [m.push_byte_ne, h.boot x hx]
    intro hxp
    have hown : p ∈ ((p, u) ::ₘ R).map Prod.fst + (m.free : Multiset Page) :=
      Multiset.mem_add.mpr (.inl (Multiset.mem_map_of_mem Prod.fst hp))
    exact h.not_boot hm hown (hxp ▸ hx)

/-- A page comes off the free list. -/
theorem Books.pop (hm : Stocked board m₀) (h : Books board m₀ R m) {rest : List Page} (hf : m.free = p :: rest)
    (u : Use) :
    (m.pop u).free = rest ∧ Books board m₀ ((p, u) ::ₘ R) (m.pop u) ∧ Same R m (m.pop u) := by
  have hpop : m.pop u = { m with
      free := rest
      byte := Function.update m.byte p fun _ => 5
      use := Function.update m.use p u } := by
    unfold Ram.pop
    rw [hf]
  have hmem : p ∈ m.free := by
    rw [hf]
    exact List.mem_cons_self
  have hne : ∀ x ∈ R, x.1 ≠ p := fun x hx he => h.not_free hm hx (he ▸ hmem)
  have hboot : p ∉ bootPages board m₀ := h.not_boot hm (Multiset.mem_add.mpr (.inr hmem))
  rw [hpop]
  refine ⟨rfl, ⟨?_, ?_, ?_⟩, fun x hx => Function.update_of_ne (hne x hx) _ _, rfl⟩
  · rw [← h.pages, hf, ← Multiset.cons_coe, Multiset.map_cons, Multiset.add_cons, Multiset.cons_add]
  · intro x hx
    rcases Multiset.mem_cons.mp hx with rfl | hx
    · exact Function.update_self _ _ _
    · exact (Function.update_of_ne (hne x hx) _ _).trans (h.used x hx)
  · intro x hx
    have hxp : x ≠ p := fun he => hboot (he ▸ hx)
    exact (Function.update_of_ne hxp _ _).trans (h.boot x hx)

/-- An owned page is written. -/
theorem Books.write (hm : Stocked board m₀) (h : Books board m₀ ((p, u) ::ₘ R) m) (b : Nat → Byte) :
    Books board m₀ ((p, u) ::ₘ R) (m.write p b) ∧ Same R m (m.write p b) := by
  refine ⟨⟨h.pages, h.used, fun x hx => ?_⟩, fun x hx => m.write_byte_ne b (h.ne hm hx), rfl⟩
  rw [m.write_byte_ne, h.boot x hx]
  intro hxp
  have hown : p ∈ ((p, u) ::ₘ R).map Prod.fst + (m.free : Multiset Page) :=
    Multiset.mem_add.mpr (.inl (Multiset.mem_map_of_mem Prod.fst (Multiset.mem_cons_self _ _)))
  exact h.not_boot hm hown (hxp ▸ hx)

/-- What a guarantee about the sections allows: freeing owned pages with a use in `ok`. -/
structure Allows (board : Board) (m₀ : Ram) (G : Label → Ram → Prop) (ok : Use → Prop) : Prop where
  plain : ∀ m, G .plain m
  kfree : ∀ p u R m, Books board m₀ ((p, u) ::ₘ R) m → ok u → G (.kfree p) m

theorem sound_allows (hm : Stocked board m₀) : Allows board m₀ (Sound board) fun _ => True where
  plain := fun _ => trivial
  kfree := by
    intro p u R m h _
    have hp : (p, u) ∈ (p, u) ::ₘ R := Multiset.mem_cons_self _ _
    refine ⟨h.not_free hm hp, ?_⟩
    rw [h.bootPages_eq]
    exact h.not_boot hm (Multiset.mem_add.mpr (.inl (Multiset.mem_map_of_mem Prod.fst hp)))

theorem teardown_allows (hm : Stocked board m₀) :
    Allows board m₀ (fun l => Sound board l.teared) fun u => u ≠ .user where
  plain := fun _ => trivial
  kfree := by
    intro p u R m h hu
    have hp : (p, u) ∈ (p, u) ::ₘ R := Multiset.mem_cons_self _ _
    refine ⟨h.not_free hm hp, ?_, ?_⟩
    · rw [h.bootPages_eq]
      exact h.not_boot hm (Multiset.mem_add.mpr (.inl (Multiset.mem_map_of_mem Prod.fst hp)))
    · rw [h.used _ hp]
      exact hu

section Ends
variable {G : Label → Ram → Prop} {ok : Use → Prop} {E : Stop → Prop} {α : Type}
  (hm : Stocked board m₀) (hG : Allows board m₀ G ok)
include hm hG

theorem ends_kfree (hb : Books board m₀ ((p, u) ::ₘ R) m) (hu : ok u) :
    (kfree board p).Ends G E m fun _ m' => Books board m₀ R m' ∧ Same R m m' ∧ m'.free = p :: m.free := by
  have hp : board.managed p := hb.managed hm (Multiset.mem_cons_self _ _)
  unfold kfree
  rw [if_pos hp]
  obtain ⟨hb', hs⟩ := hb.push hm
  exact Prog.Ends.change_last (hG.kfree p u R m hb hu) ⟨hb', hs, rfl⟩

/-- `kalloc`, and what follows it. -/
theorem ends_kalloc {k : Option Page → Vm α} {Q : α → Ram → Prop} (hb : Books board m₀ R m)
    (hnone : m.free = [] → (k none).Ends G E m Q)
    (hsome : ∀ p m', m.free = p :: m'.free → Books board m₀ ((p, u) ::ₘ R) m' → Same R m m' →
      (k (some p)).Ends G E m' Q) : (kalloc u >>= k).Ends G E m Q := by
  refine ⟨hG.plain m, m.pop u, rfl, ?_⟩
  show (k m.free.head?).Ends G E (m.pop u) Q
  cases hf : m.free with
  | nil =>
    have hpop : m.pop u = m := by
      unfold Ram.pop
      rw [hf]
    rw [hpop]
    exact hnone hf
  | cons p rest =>
    obtain ⟨hrest, hb', hs⟩ := hb.pop hm hf u
    exact hsome p (m.pop u) (by rw [hrest]; exact hf) hb' hs

end Ends
end Farron.Memory
