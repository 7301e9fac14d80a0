import Farron.Fat.Layout
import Farron.Kernel.Stop
import Farron.Radix.Tree
import Farron.Resumption.Alone

/-! Physical memory: pages, the page allocator, page-table entries.

A page is known by its number (its physical address over `PGSIZE`) and holds 4096 bytes;
page-table pages hold their entries in the same bytes. `free` is `kmem.freelist` in order.
`kern` is the memory of the kernel's own objects, outside the pages that `kalloc` hands out.
`use` is history, read by no function: what the page was last allocated for. -/
namespace Farron.Memory
open Resumption Radix

def pgsize : Nat := 4096
def maxva : Nat := 2 ^ 38
def trampolineVa : Nat := maxva - pgsize
def trapframeVa : Nat := trampolineVa - pgsize
def vkstack : Nat := 0x3EC0000000
def maxuva : Nat := 0x80000000
def phystop : Nat := 0x80600000

def u64 (n : Nat) : Nat := n % 2 ^ 64

/-- `PGROUNDUP`. -/
def pgroundup (n : Nat) : Nat := u64 (n + pgsize - 1) / pgsize * pgsize

/-- `PGROUNDDOWN`. -/
def pgrounddown (n : Nat) : Nat := n / pgsize * pgsize

/-- An `int` passed for a `uint64`. -/
def ofInt32 (n : Nat) : Nat := if n % 2 ^ 32 < 2 ^ 31 then n % 2 ^ 32 else n % 2 ^ 32 + (2 ^ 64 - 2 ^ 32)

@[simp] theorem pgsize_eq : pgsize = 4096 := rfl

theorem u64_of_lt {n : Nat} (h : n < 2 ^ 64) : u64 n = n := Nat.mod_eq_of_lt h

theorem pgroundup_of_lt {n : Nat} (h : n < 2 ^ 63) : pgroundup n = (n + 4095) / 4096 * 4096 := by
  unfold pgroundup
  rw [u64_of_lt (by simp only [pgsize_eq]; omega), pgsize_eq]
  rfl

/-- How many pages hold so many bytes. -/
def npages (sz : Nat) : Nat := (sz + 4095) / 4096

theorem pgroundup_eq {sz n : Nat} (h : npages sz = n) (hn : n ≤ 2 ^ 19) : pgroundup sz = n * pgsize := by
  unfold npages at h
  rw [pgroundup_of_lt (by omega), h]
  rfl

theorem npages_mul (n : Nat) : npages (n * pgsize) = n := by
  unfold npages
  rw [pgsize_eq]
  omega

theorem ofInt32_of_lt {n : Nat} (h : n < 2 ^ 31) : ofInt32 n = n := by
  unfold ofInt32
  rw [Nat.mod_eq_of_lt (by omega : n < 2 ^ 32), if_pos h]

/-! ### Words of a page -/

/-- The 64-bit word at byte offset `o`. -/
def word64 (b : Nat → Byte) (o : Nat) : Nat := word32 b o + 2 ^ 32 * word32 b (o + 4)

def putWord64 (o v : Nat) (b : Nat → Byte) : Nat → Byte :=
  putWord32 (o + 4) (u32 (v / 2 ^ 32)) (putWord32 o (u32 v) b)

theorem u32_lt (n : Nat) : u32 n < 2 ^ 32 := Nat.mod_lt _ (by decide)

theorem word64_lt (b : Nat → Byte) (o : Nat) : word64 b o < 2 ^ 64 := by
  have h0 := word32_lt b o
  have h1 := word32_lt b (o + 4)
  unfold word64
  omega

theorem word64_putWord64 {v : Nat} (o : Nat) (b : Nat → Byte) (h : v < 2 ^ 64) : word64 (putWord64 o v b) o = v := by
  have hlo : word32 (putWord64 o v b) o = u32 v := by
    rw [putWord64, word32_putWord32_ne _ _ (.inl (by omega)), word32_putWord32 _ _ (u32_lt v)]
  have hhi : word32 (putWord64 o v b) (o + 4) = u32 (v / 2 ^ 32) := word32_putWord32 _ _ (u32_lt _)
  rw [word64, hlo, hhi]
  unfold u32
  omega

theorem word64_putWord64_ne {o o' : Nat} (v : Nat) (b : Nat → Byte) (h : o' + 8 ≤ o ∨ o + 8 ≤ o') :
    word64 (putWord64 o v b) o' = word64 b o' := by
  have hlo : word32 (putWord64 o v b) o' = word32 b o' := by
    rw [putWord64, word32_putWord32_ne _ _ (by omega), word32_putWord32_ne _ _ (by omega)]
  have hhi : word32 (putWord64 o v b) (o' + 4) = word32 b (o' + 4) := by
    rw [putWord64, word32_putWord32_ne _ _ (by omega), word32_putWord32_ne _ _ (by omega)]
  rw [word64, word64, hlo, hhi]

theorem word64_zero (o : Nat) : word64 (fun _ => 0) o = 0 := rfl

/-! ### Page-table entries -/

abbrev Page := Nat

def pteV : Nat := 1
def pteR : Nat := 2
def pteW : Nat := 4
def pteX : Nat := 8
def pteU : Nat := 16

/-- `PA2PTE`. -/
def pa2pte (pa : Page) : Nat := u64 (pa <<< 10)

/-- `PTE2PA`. -/
def pte2pa (pte : Nat) : Page := pte >>> 10 % 2 ^ 52

/-- `PTE_FLAGS`. -/
def pteFlags (pte : Nat) : Nat := pte % 1024

/-- `pte & PTE_V`. -/
def isValid (pte : Nat) : Bool := pte.testBit 0

/-- `pte & (PTE_R | PTE_W | PTE_X)`. -/
def isLeaf (pte : Nat) : Bool := pte.testBit 1 || pte.testBit 2 || pte.testBit 3

/-- `pte & PTE_U`. -/
def isUser (pte : Nat) : Bool := pte.testBit 4

/-- A leaf: the page it maps to and its flags. -/
structure Pte where
  page : Page
  flags : Nat
  deriving DecidableEq

/-- What a word means as a page-table entry. -/
def entry (pte : Nat) : Entry Page Pte :=
  if isValid pte then
    if isLeaf pte then .leaf ⟨pte2pa pte, pteFlags pte⟩ else .table (pte2pa pte)
  else .empty

theorem entry_empty {pte : Nat} : entry pte = .empty ↔ isValid pte = false := by
  unfold entry
  split
  · split <;> simp_all
  · simp_all

theorem entry_table {pte : Nat} {q : Page} (h : entry pte = .table q) :
    isValid pte = true ∧ isLeaf pte = false ∧ pte2pa pte = q := by
  unfold entry at h
  split at h
  · split at h
    · cases h
    · simp_all
  · cases h

theorem entry_leaf {pte : Nat} {e : Pte} (h : entry pte = .leaf e) :
    isValid pte = true ∧ isLeaf pte = true ∧ pte2pa pte = e.page ∧ pteFlags pte = e.flags := by
  unfold entry at h
  split at h
  · split at h
    · cases h
      simp_all
    · cases h
  · cases h

@[simp] theorem entry_zero : entry 0 = .empty := rfl

section Words
variable {pa perm : Nat}

theorem pa2pte_of_lt (h : pa < 2 ^ 52) : pa2pte pa = pa <<< 10 := by
  apply u64_of_lt
  rw [Nat.shiftLeft_eq]
  omega

/-- The word that `mappages` and `walk` store, in parts. -/
theorem pte_word (h : pa < 2 ^ 52) (hp : perm < 1024) :
    (pa2pte pa ||| perm) >>> 10 = pa ∧ (pa2pte pa ||| perm) % 1024 = perm ∧ pa2pte pa ||| perm < 2 ^ 64 := by
  have hzero : (pa <<< 10) % 2 ^ 10 = 0 := by
    rw [Nat.shiftLeft_eq]
    exact Nat.mul_mod_left _ _
  have hshift : perm >>> 10 = 0 := by
    rw [Nat.shiftRight_eq_div_pow]
    exact Nat.div_eq_of_lt hp
  rw [pa2pte_of_lt h]
  refine ⟨?_, ?_, ?_⟩
  · rw [Nat.shiftRight_or_distrib, Nat.shiftLeft_shiftRight, hshift, Nat.or_zero]
  · show (pa <<< 10 ||| perm) % 2 ^ 10 = perm
    rw [Nat.or_mod_two_pow, hzero, Nat.zero_or]
    exact Nat.mod_eq_of_lt hp
  · refine Nat.or_lt_two_pow ?_ (by omega)
    rw [Nat.shiftLeft_eq]
    omega

theorem testBit_flags {w i : Nat} (hi : i < 10) : w.testBit i = (w % 1024).testBit i := by
  show w.testBit i = (w % 2 ^ 10).testBit i
  rw [Nat.testBit_mod_two_pow, decide_eq_true hi, Bool.true_and]

theorem pte2pa_word (h : pa < 2 ^ 52) (hp : perm < 1024) : pte2pa (pa2pte pa ||| perm) = pa := by
  rw [pte2pa, (pte_word h hp).1, Nat.mod_eq_of_lt h]

/-- What is decided by the flags is the same for a word with these flags. -/
theorem flags_word (h : pa < 2 ^ 52) (hp : perm < 1024) :
    isValid (pa2pte pa ||| perm) = isValid perm ∧ isLeaf (pa2pte pa ||| perm) = isLeaf perm := by
  have hw := (pte_word h hp).2.1
  simp only [isValid, isLeaf, testBit_flags (by omega : 0 < 10), testBit_flags (by omega : 1 < 10),
    testBit_flags (by omega : 2 < 10), testBit_flags (by omega : 3 < 10), hw, Nat.mod_eq_of_lt hp, and_self]

theorem entry_word_leaf (h : pa < 2 ^ 52) (hp : perm < 1024) (hv : isValid perm = true) (hl : isLeaf perm = true) :
    entry (pa2pte pa ||| perm) = .leaf ⟨pa, perm⟩ := by
  rw [entry, (flags_word h hp).1, (flags_word h hp).2, hv, hl, if_pos rfl, if_pos rfl, pte2pa_word h hp, pteFlags,
    (pte_word h hp).2.1]

theorem entry_word_table (h : pa < 2 ^ 52) : entry (pa2pte pa ||| pteV) = .table pa := by
  have hp : pteV < 1024 := by decide
  rw [entry, (flags_word h hp).1, (flags_word h hp).2, if_pos (by decide), if_neg (by decide), pte2pa_word h hp]

/-- `*pte &= ~PTE_U`. -/
def clearU (pte : Nat) : Nat := pte &&& (2 ^ 64 - 1 - pteU)

/-- Flags without `PTE_U`. -/
def noU (flags : Nat) : Nat := flags &&& (1023 - pteU)

theorem clearU_lt {w : Nat} (h : w < 2 ^ 64) : clearU w < 2 ^ 64 := Nat.lt_of_le_of_lt Nat.and_le_left h

theorem entry_clearU {w : Nat} {e : Pte} (h : w < 2 ^ 64) (he : entry w = .leaf e) :
    entry (clearU w) = .leaf ⟨e.page, noU e.flags⟩ := by
  obtain ⟨hv, hl, hpa, hfl⟩ := entry_leaf he
  have hflags : pteFlags (clearU w) = noU e.flags := by
    rw [← hfl]
    exact @Nat.and_mod_two_pow w (2 ^ 64 - 1 - pteU) 10
  have hpage : pte2pa (clearU w) = e.page := by
    have hand : (2 ^ 64 - 1 - pteU) >>> 10 = 2 ^ 54 - 1 := by decide
    have hlt : w >>> 10 < 2 ^ 54 := by
      rw [Nat.shiftRight_eq_div_pow]
      omega
    rw [← hpa, pte2pa, pte2pa, clearU, Nat.shiftRight_and_distrib, hand, Nat.and_two_pow_sub_one_eq_mod,
      Nat.mod_eq_of_lt hlt]
  have hbit : ∀ i, i < 4 → (clearU w).testBit i = w.testBit i := by
    intro i hi
    have hone : (2 ^ 64 - 1 - pteU).testBit i = true := by
      revert i
      decide
    rw [clearU, Nat.testBit_and, hone, Bool.and_true]
  have hv' : isValid (clearU w) = true := (hbit 0 (by omega)).trans hv
  have hl' : isLeaf (clearU w) = true := by
    unfold isLeaf
    rw [hbit 1 (by omega), hbit 2 (by omega), hbit 3 (by omega)]
    exact hl
  rw [entry, hv', hl', if_pos rfl, if_pos rfl, hflags, hpage]

theorem noU_testBit {w i : Nat} (hi : i < 4) : (noU w).testBit i = w.testBit i := by
  have hone : (1023 - pteU).testBit i = true := by
    revert i
    decide
  rw [noU, Nat.testBit_and, hone, Bool.and_true]

theorem or_pteV {w : Nat} (h : isValid w = true) : w ||| pteV = w := by
  apply Nat.eq_of_testBit_eq
  intro i
  rw [Nat.testBit_or]
  by_cases hi : i = 0
  · have h : w.testBit 0 = true := h
    rw [hi, h, Bool.true_or]
  · have hzero : pteV.testBit i = false := by
      rw [Bool.eq_false_iff]
      exact fun ht => hi (Nat.testBit_one_eq_true_iff_self_eq_zero.mp ht)
    rw [hzero, Bool.or_false]

/-- The flags of a leaf make a leaf again, with and without `PTE_U`. -/
theorem flags_leaf {w : Nat} {e : Pte} (he : entry w = .leaf e) :
    e.flags < 1024 ∧ isLeaf e.flags = true ∧ e.flags ||| pteV = e.flags ∧
      noU e.flags < 1024 ∧ isLeaf (noU e.flags) = true ∧ noU e.flags ||| pteV = noU e.flags := by
  obtain ⟨hv, hl, -, hfl⟩ := entry_leaf he
  have hbit : ∀ i, i < 4 → e.flags.testBit i = w.testBit i := by
    intro i hi
    rw [← hfl, testBit_flags (w := w) (by omega : i < 10)]
    rfl
  have hlt : e.flags < 1024 := by
    rw [← hfl]
    exact Nat.mod_lt _ (by decide)
  have hv' : isValid e.flags = true := (hbit 0 (by decide)).trans hv
  have hl' : isLeaf e.flags = true := by
    unfold isLeaf
    rw [hbit 1 (by decide), hbit 2 (by decide), hbit 3 (by decide)]
    exact hl
  refine ⟨hlt, hl', or_pteV hv', Nat.lt_of_le_of_lt Nat.and_le_left hlt, ?_, or_pteV ((noU_testBit (by decide)).trans hv')⟩
  unfold isLeaf
  rw [noU_testBit (by decide), noU_testBit (by decide), noU_testBit (by decide)]
  exact hl'

end Words

/-! ### Memory -/

inductive Use
  | table | user | trapframe | stack | boot
  deriving DecidableEq

structure Ram where
  free : List Page
  byte : Page → Nat → Byte
  kern : Nat → Byte
  use : Page → Use

/-- Which section this is: one that frees a page, in the teardown of a kernel page table or
elsewhere, or another one. -/
inductive Label
  | plain
  | kfree (pa : Page)
  | teardown (pa : Page)

abbrev Vm := Prog Label Stop Ram

def panic {α : Type} (msg : String) : Vm α := .stop (.panic msg)

namespace Ram
variable (m : Ram)

/-- Page `p` with new contents. -/
def write (p : Page) (b : Nat → Byte) : Ram := { m with byte := Function.update m.byte p b }

/-- The first page of the free list taken off it. -/
def pop (u : Use) : Ram :=
  match m.free with
  | [] => m
  | r :: rest => { m with
      free := rest
      byte := Function.update m.byte r fun _ => 5
      use := Function.update m.use r u }

def push (pa : Page) : Ram := { m with free := pa :: m.free, byte := Function.update m.byte pa fun _ => 1 }

/-- `&pagetable[i]`, read. -/
def pte (p : Page) (i : Fin 512) : Nat := word64 (m.byte p) (8 * i)

def setPte (p : Page) (i : Fin 512) (pte : Nat) : Ram := m.write p (putWord64 (8 * i) pte (m.byte p))

/-- The pages read as page tables. -/
def heap : Heap Page (Fin 512) Pte := fun p i => entry (m.pte p i)

@[simp] theorem write_free (p : Page) (b : Nat → Byte) : (m.write p b).free = m.free := rfl
@[simp] theorem write_use (p : Page) (b : Nat → Byte) : (m.write p b).use = m.use := rfl
@[simp] theorem write_kern (p : Page) (b : Nat → Byte) : (m.write p b).kern = m.kern := rfl
@[simp] theorem write_byte (p : Page) (b : Nat → Byte) : (m.write p b).byte p = b := by
  simp only [write, Function.update_self]
theorem write_byte_ne {p q : Page} (b : Nat → Byte) (h : q ≠ p) : (m.write p b).byte q = m.byte q := by
  simp only [write, Function.update_of_ne h]

@[simp] theorem setPte_free (p : Page) (i : Fin 512) (w : Nat) : (m.setPte p i w).free = m.free := rfl
@[simp] theorem setPte_use (p : Page) (i : Fin 512) (w : Nat) : (m.setPte p i w).use = m.use := rfl
@[simp] theorem setPte_kern (p : Page) (i : Fin 512) (w : Nat) : (m.setPte p i w).kern = m.kern := rfl

@[simp] theorem push_free (p : Page) : (m.push p).free = p :: m.free := rfl
@[simp] theorem push_use (p : Page) : (m.push p).use = m.use := rfl
@[simp] theorem push_kern (p : Page) : (m.push p).kern = m.kern := rfl
theorem push_byte_ne {p q : Page} (h : q ≠ p) : (m.push p).byte q = m.byte q := by
  simp only [push, Function.update_of_ne h]

theorem heap_congr {m m' : Ram} {p : Page} (h : m'.byte p = m.byte p) : m'.heap p = m.heap p := by
  funext i
  simp only [heap, pte, h]

theorem pte_setPte (p : Page) (i j : Fin 512) {w : Nat} (h : w < 2 ^ 64) :
    (m.setPte p i w).pte p j = if j = i then w else m.pte p j := by
  unfold pte setPte
  rw [write_byte]
  by_cases hji : j = i
  · rw [if_pos hji, hji, word64_putWord64 _ _ h]
  · rw [if_neg hji, word64_putWord64_ne]
    have hne : (j : Nat) ≠ i := fun hv => hji (Fin.ext hv)
    omega

theorem heap_setPte (p : Page) (i : Fin 512) {w : Nat} (h : w < 2 ^ 64) :
    (m.setPte p i w).heap p = Function.update (m.heap p) i (entry w) := by
  funext j
  simp only [heap, pte_setPte m p i j h]
  by_cases hji : j = i
  · rw [if_pos hji, hji, Function.update_self]
  · rw [if_neg hji, Function.update_of_ne hji]
    rfl

theorem heap_setPte_ne {p q : Page} (i : Fin 512) (w : Nat) (h : q ≠ p) : (m.setPte p i w).heap q = m.heap q :=
  heap_congr (m.write_byte_ne _ h)

/-- A page that was zeroed is an empty page table. -/
theorem heap_zero {p : Page} (h : m.byte p = fun _ => 0) (i : Fin 512) : m.heap p i = .empty := by
  simp only [heap, pte, h, word64_zero, entry_zero]

end Ram
end Farron.Memory
