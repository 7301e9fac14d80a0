import Mathlib.Logic.Function.Basic
import Mathlib.Data.List.Basic

/-! A window of a ring.

A ring of `size` slots shows the list `l` from `start` on if each element is in its slot. A window
moves by storing behind its end, by dropping its first element, and by giving up its last.
`listing` reads a window off a ring. -/
namespace Ring
variable {α : Type} {size start : Nat} {buf : Nat → α} {l l' : List α} {a : α}

structure Window (size : Nat) (buf : Nat → α) (start : Nat) (l : List α) : Prop where
  fits : l.length ≤ size
  shown : ∀ k (hk : k < l.length), buf ((start + k) % size) = l[k]

namespace Window

theorem nil (buf : Nat → α) (start : Nat) : Window size buf start [] :=
  ⟨Nat.zero_le _, fun k hk => absurd hk (Nat.not_lt_zero k)⟩

theorem head (h : Window size buf start (a :: l)) : buf (start % size) = a := h.shown 0 (Nat.zero_lt_succ _)

theorem tail (h : Window size buf start (a :: l)) : Window size buf (start + 1) l := by
  refine ⟨Nat.le_of_succ_le h.fits, fun k hk => ?_⟩
  have := h.shown (k + 1) (Nat.succ_lt_succ hk)
  rw [List.getElem_cons_succ] at this
  rw [← this, Nat.add_assoc, Nat.add_comm 1 k]

theorem front (h : Window size buf start (l ++ l')) : Window size buf start l := by
  have hlen := h.fits
  rw [List.length_append] at hlen
  refine ⟨by omega, fun k hk => ?_⟩
  rw [h.shown k (by rw [List.length_append]; omega), List.getElem_append_left hk]

/-- Slots of different elements differ. -/
theorem slot_ne {j k : Nat} (hj : start ≤ j) (hjk : j < k) (hk : k < start + size) : j % size ≠ k % size := by
  intro he
  have hdvd := Nat.sub_mod_eq_zero_of_mod_eq he.symm
  rw [Nat.mod_eq_of_lt (by omega)] at hdvd
  omega

/-- An element is stored behind the last. -/
theorem push (h : Window size buf start l) (hroom : l.length < size) (a : α) :
    Window size (Function.update buf ((start + l.length) % size) a) start (l ++ [a]) := by
  refine ⟨by rw [List.length_append]; exact hroom, fun k hk => ?_⟩
  rw [List.length_append, List.length_singleton] at hk
  by_cases hlast : k = l.length
  · subst hlast
    rw [Function.update_self, List.getElem_concat_length rfl]
  · have hk' : k < l.length := by omega
    have hne : (start + k) % size ≠ (start + l.length) % size :=
      slot_ne (Nat.le_add_right start k) (by omega) (by omega)
    rw [Function.update_of_ne hne, List.getElem_append_left hk']
    exact h.shown k hk'

end Window

/-- The `n` elements from `start` on. -/
def listing (size : Nat) (buf : Nat → α) (start n : Nat) : List α := (List.range n).map fun k => buf ((start + k) % size)

theorem listing_succ (size : Nat) (buf : Nat → α) (start n : Nat) :
    listing size buf start (n + 1) = buf (start % size) :: listing size buf (start + 1) n := by
  unfold listing
  rw [List.range_succ_eq_map, List.map_cons, List.map_map]
  refine congrArg (buf (start % size) :: ·) (List.map_congr_left fun k _ => ?_)
  show buf ((start + (k + 1)) % size) = buf ((start + 1 + k) % size)
  rw [Nat.add_assoc, Nat.add_comm 1 k]

/-- An index may wrap at a multiple of the size. -/
theorem listing_mod {m : Nat} (h : size ∣ m) (buf : Nat → α) (start n : Nat) :
    listing size buf (start % m) n = listing size buf start n := by
  unfold listing
  refine List.map_congr_left fun k _ => ?_
  rw [Nat.add_mod, Nat.mod_mod_of_dvd start h, ← Nat.add_mod]

end Ring
