import Farron.Chains.Circle
import Farron.Kernel.Common
import Mathlib.Logic.Function.Basic

/-! The user's heap allocator, `user/umalloc.c`.

A header is known by its address, and the words of one are found under it: `ptr` and `size`
of a heap are the memory, read as headers. `base` is the address of the static one. The
system call `sbrk` is a function of the rest of the world, which says nothing where it does
not return; an answer of -1 is `none`. The two loops count their rounds, and a function that
has used them up returns nothing. -/
namespace Farron.Umalloc

/-- `sizeof(Header)`. -/
def headerSize : Nat := 16

@[simp] theorem headerSize_eq : headerSize = 16 := rfl

/-- `freep` is 0 before the first call of `malloc`. -/
structure Heap where
  ptr : Nat → Nat
  size : Nat → Nat
  freep : Nat

namespace Heap
variable (h : Heap)

def setPtr (p q : Nat) : Heap := { h with ptr := Function.update h.ptr p q }
def setSize (p n : Nat) : Heap := { h with size := Function.update h.size p n }

/-- `p + p->s.size`. -/
def after (p : Nat) : Nat := p + headerSize * h.size p

@[simp] theorem setPtr_size (p q : Nat) : (h.setPtr p q).size = h.size := rfl
@[simp] theorem setPtr_freep (p q : Nat) : (h.setPtr p q).freep = h.freep := rfl
@[simp] theorem setSize_ptr (p n : Nat) : (h.setSize p n).ptr = h.ptr := rfl
@[simp] theorem setSize_freep (p n : Nat) : (h.setSize p n).freep = h.freep := rfl
@[simp] theorem setPtr_ptr (p q : Nat) : (h.setPtr p q).ptr = Function.update h.ptr p q := rfl
@[simp] theorem setSize_size (p n : Nat) : (h.setSize p n).size = Function.update h.size p n := rfl

/-- Where the loop of `free` ends: between `p` and the next one, or behind the last one. -/
def Between (bp p : Nat) : Prop :=
  (bp > p ∧ bp < h.ptr p) ∨ (p ≥ h.ptr p ∧ (bp > p ∨ bp < h.ptr p))

instance (bp p : Nat) : Decidable (h.Between bp p) := inferInstanceAs (Decidable (_ ∨ _))

/-- `bp` in front of the block that follows `p`, merged with it if they touch. -/
def joinNext (bp p : Nat) : Heap :=
  if h.after bp = h.ptr p then
    (h.setSize bp (u32 (h.size bp + h.size (h.ptr p)))).setPtr bp (h.ptr (h.ptr p))
  else h.setPtr bp (h.ptr p)

/-- `bp` behind `p`, merged with it if they touch. -/
def joinPrev (bp p : Nat) : Heap :=
  if h.after p = bp then (h.setSize p (u32 (h.size p + h.size bp))).setPtr p (h.ptr bp)
  else h.setPtr p bp

/-- `nunits` units from the block at `p`, which has enough: all of it, or its tail. -/
def take (nunits prevp p : Nat) : Nat × Heap :=
  if h.size p = nunits then (p + headerSize, { h.setPtr prevp (h.ptr p) with freep := prevp })
  else
    let h := h.setSize p (h.size p - nunits)
    let p := h.after p
    (p + headerSize, { h.setSize p nunits with freep := prevp })

end Heap

def free (rounds : Nat) (h : Heap) (ap : Nat) : Option Heap := do
  let bp := ap - headerSize
  let p ← Chains.scan h.ptr (h.Between bp) rounds h.freep
  return { (h.joinNext bp p).joinPrev bp p with freep := p }

section Calls
variable {σ : Type} (base : Nat) (sbrk : Int → σ → Option (Option Nat × σ))

/-- Returns `freep`, or 0. -/
def morecore (rounds : Nat) (h : Heap) (s : σ) (nu : Nat) : Option (Nat × Heap × σ) := do
  let nu := if nu < 4096 then 4096 else nu
  match ← sbrk (int32 (nu * headerSize)) s with
  | (none, s) => return (0, h, s)
  | (some hp, s) => do
    let h ← free rounds (h.setSize hp nu) (hp + headerSize)
    return (h.freep, h, s)

/-- The loop of `malloc`. -/
def search (nunits : Nat) : Nat → Nat → Nat → Heap → σ → Option (Nat × Heap × σ)
  | 0, _, _, _, _ => none
  | rounds + 1, prevp, p, h, s =>
    if h.size p ≥ nunits then
      let (ap, h) := h.take nunits prevp p
      some (ap, h, s)
    else if p = h.freep then do
      let (p, h, s) ← morecore sbrk rounds h s nunits
      if p = 0 then return (0, h, s) else search nunits rounds p (h.ptr p) h s
    else search nunits rounds p (h.ptr p) h s

/-- The header and `nbytes` bytes. -/
def units (nbytes : Nat) : Nat := u32 ((nbytes + headerSize - 1) / headerSize + 1)

/-- At the first call the list is made, of the static header alone. -/
def Heap.start (h : Heap) : Heap :=
  if h.freep = 0 then { (h.setPtr base base).setSize base 0 with freep := base } else h

/-- Returns 0, or a block for `nbytes` bytes. -/
def malloc (rounds : Nat) (h : Heap) (s : σ) (nbytes : Nat) : Option (Nat × Heap × σ) :=
  let h := h.start base
  search sbrk (units nbytes) rounds h.freep (h.ptr h.freep) h s

end Calls

/-- From some number of rounds on, the function returns `a`. -/
def Returns {α : Type} (f : Nat → Option α) (a : α) : Prop := ∃ n, ∀ rounds, n ≤ rounds → f rounds = some a

theorem Returns.unique {α : Type} {f : Nat → Option α} {a b : α} (ha : Returns f a) (hb : Returns f b) : a = b := by
  obtain ⟨n, hn⟩ := ha
  obtain ⟨k, hk⟩ := hb
  have hmax := (hn (max n k) (Nat.le_max_left n k)).symm.trans (hk (max n k) (Nat.le_max_right n k))
  exact Option.some.inj hmax

theorem units_of_lt {nbytes : Nat} (h : nbytes < 2 ^ 32) : units nbytes = (nbytes + 15) / 16 + 1 := by
  unfold units
  rw [headerSize_eq]
  exact u32_of_lt (by omega)

end Farron.Umalloc
