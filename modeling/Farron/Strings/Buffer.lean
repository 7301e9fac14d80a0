import Mathlib.Algebra.Order.Ring.Nat
import Mathlib.Data.List.DropRight
import Mathlib.Data.UInt
import Mathlib.Logic.Function.Basic
import Mathlib.Tactic.Common

/-! Terminated strings in a memory.

A memory is a function from addresses; a string is the list of its characters, none of them
zero, and stands at an address when a zero follows it there (`StringAt`). What follows is how
such a string is read from an address inside it, cut and put in front of another one, and what
the copying loop with a bound (`strncpy`) leaves behind. -/
namespace Strings
variable {α : Type} [Zero α]

/-- The string `s` stands at `p`. -/
structure StringAt (mem : Nat → α) (p : Nat) (s : List α) : Prop where
  chars : ∀ i c, s[i]? = some c → mem (p + i) = c
  nul : mem (p + s.length) = 0
  nonzero : ∀ c ∈ s, c ≠ 0

namespace StringAt
variable {mem mem' : Nat → α} {p : Nat} {s t : List α} {c : α}

theorem empty (h : mem p = 0) : StringAt mem p [] := ⟨by simp, h, by simp⟩

theorem head (h : StringAt mem p (c :: s)) : mem p = c := h.chars 0 c rfl

theorem head_ne_zero (h : StringAt mem p (c :: s)) : mem p ≠ 0 := by
  rw [h.head]
  exact h.nonzero c (by simp)

theorem nul_empty (h : StringAt mem p []) : mem p = 0 := h.nul

/-- The string behind some of its characters. -/
theorem right (h : StringAt mem p (s ++ t)) : StringAt mem (p + s.length) t where
  chars i c hc := by
    rw [Nat.add_assoc]
    exact h.chars (s.length + i) c (by rwa [List.getElem?_append_right (by omega), Nat.add_sub_cancel_left])
  nul := by
    have := h.nul
    rwa [List.length_append, ← Nat.add_assoc] at this
  nonzero c hc := h.nonzero c (List.mem_append_right _ hc)

theorem tail (h : StringAt mem p (c :: s)) : StringAt mem (p + 1) s := right (s := [c]) h

theorem congr (h : StringAt mem p s) (he : ∀ i, i ≤ s.length → mem' (p + i) = mem (p + i)) :
    StringAt mem' p s where
  chars i c hc := by
    rw [he i (List.getElem?_eq_some_iff.mp hc).1.le]
    exact h.chars i c hc
  nul := by
    rw [he _ (le_refl _)]
    exact h.nul
  nonzero := h.nonzero

/-- Characters put in front of a string. -/
theorem append (hs : ∀ i c, s[i]? = some c → mem (p + i) = c) (hz : ∀ c ∈ s, c ≠ 0)
    (h : StringAt mem (p + s.length) t) : StringAt mem p (s ++ t) where
  chars i c hc := by
    by_cases hi : i < s.length
    · exact hs i c (by rwa [List.getElem?_append_left hi] at hc)
    · obtain ⟨j, rfl⟩ := Nat.exists_eq_add_of_le (Nat.le_of_not_lt hi)
      rw [List.getElem?_append_right (by omega), Nat.add_sub_cancel_left] at hc
      rw [← Nat.add_assoc]
      exact h.chars j c hc
  nul := by
    rw [List.length_append, ← Nat.add_assoc]
    exact h.nul
  nonzero c hc := (List.mem_append.mp hc).elim (hz c) (h.nonzero c)

/-- A character in front of a string. -/
theorem cons (hp : mem p ≠ 0) (h : StringAt mem (p + 1) s) : StringAt mem p (mem p :: s) := by
  refine append (s := [mem p]) (fun i c hc => ?_) (by simpa using hp) h
  cases i with
  | zero => exact Option.some.inj hc
  | succ i => cases hc

/-- A zero written into a string cuts it. -/
theorem cut (h : StringAt mem p (s ++ t)) : StringAt (Function.update mem (p + s.length) 0) p s where
  chars i c hc := by
    have hi := (List.getElem?_eq_some_iff.mp hc).1
    rw [Function.update_of_ne (by omega)]
    exact h.chars i c (by rwa [List.getElem?_append_left hi])
  nul := Function.update_self ..
  nonzero c hc := h.nonzero c (List.mem_append_left _ hc)

/-- What stands at an address is one string. -/
theorem unique (hs : StringAt mem p s) (ht : StringAt mem p t) : s = t := by
  induction s generalizing p t with
  | nil =>
    cases t with
    | nil => rfl
    | cons d t => exact absurd hs.nul_empty ht.head_ne_zero
  | cons c s ih =>
    cases t with
    | nil => exact absurd ht.nul_empty hs.head_ne_zero
    | cons d t => rw [← hs.head, ← ht.head, ih hs.tail ht.tail]

end StringAt

/-- How many characters there are before the first zero at or behind `p`, of the next `n`. -/
def strlen [DecidableEq α] (mem : Nat → α) : Nat → Nat → Nat
  | 0, _ => 0
  | n + 1, p => if mem p = 0 then 0 else strlen mem n (p + 1) + 1

theorem StringAt.strlen_eq [DecidableEq α] {mem : Nat → α} {p n : Nat} {s : List α} (h : StringAt mem p s)
    (hn : s.length ≤ n) : strlen mem n p = s.length := by
  induction s generalizing p n with
  | nil =>
    cases n with
    | zero => rfl
    | succ n => rw [strlen, if_pos h.nul_empty, List.length_nil]
  | cons c s ih =>
    obtain ⟨n, rfl⟩ : ∃ m, n = m + 1 := ⟨n - 1, by rw [List.length_cons] at hn; omega⟩
    rw [strlen, if_neg h.head_ne_zero, ih h.tail (by simpa using hn), List.length_cons]

/-- The string at `p`, if it ends within the next `n` places. -/
def string? [DecidableEq α] (mem : Nat → α) : Nat → Nat → Option (List α)
  | 0, _ => none
  | n + 1, p => if mem p = 0 then some [] else (string? mem n (p + 1)).map (mem p :: ·)

theorem string?_eq_some_iff [DecidableEq α] {mem : Nat → α} {n p : Nat} {s : List α} :
    string? mem n p = some s ↔ StringAt mem p s ∧ s.length < n := by
  induction n generalizing p s with
  | zero => simp [string?]
  | succ n ih =>
    rw [string?]
    by_cases hp : mem p = 0
    · rw [if_pos hp, Option.some.injEq]
      constructor
      · rintro rfl
        exact ⟨.empty hp, Nat.succ_pos n⟩
      · rintro ⟨h, -⟩
        exact (StringAt.empty hp).unique h
    · rw [if_neg hp, Option.map_eq_some_iff]
      constructor
      · rintro ⟨t, ht, rfl⟩
        obtain ⟨h, hn⟩ := ih.mp ht
        exact ⟨.cons hp h, Nat.succ_lt_succ hn⟩
      · rintro ⟨h, hn⟩
        cases s with
        | nil => exact absurd h.nul_empty hp
        | cons c s => exact ⟨s, ih.mpr ⟨h.tail, Nat.lt_of_succ_lt_succ hn⟩, by rw [h.head]⟩

/-- In front of a zero there is a string. -/
theorem exists_stringAt [DecidableEq α] {mem : Nat → α} {p k : Nat} (h : mem (p + k) = 0) :
    ∃ s, StringAt mem p s ∧ s.length ≤ k := by
  induction k generalizing p with
  | zero => exact ⟨[], .empty h, le_refl _⟩
  | succ k ih =>
    by_cases hp : mem p = 0
    · exact ⟨[], .empty hp, Nat.zero_le _⟩
    · obtain ⟨s, hs, hk⟩ := ih (p := p + 1) (by rwa [Nat.add_right_comm, Nat.add_assoc])
      exact ⟨mem p :: s, .cons hp hs, Nat.succ_le_succ hk⟩

/-! ### Copying with a bound -/

/-- `n` zeros from `s` on. -/
def zeros : Nat → Nat → (Nat → α) → Nat → α
  | 0, _, mem => mem
  | n + 1, s, mem => zeros n (s + 1) (Function.update mem s 0)

theorem zeros_apply (n s : Nat) (mem : Nat → α) (o : Nat) :
    zeros n s mem o = if s ≤ o ∧ o < s + n then 0 else mem o := by
  induction n generalizing s mem with
  | zero => rw [zeros, if_neg (by omega)]
  | succ n ih =>
    rw [zeros, ih]
    by_cases ho : o = s
    · subst ho
      rw [if_neg (by omega), if_pos (by omega), Function.update_self]
    · rw [Function.update_of_ne ho]
      by_cases hin : s ≤ o ∧ o < s + (n + 1)
      · rw [if_pos (by omega), if_pos hin]
      · rw [if_neg (by omega), if_neg hin]

variable [DecidableEq α]

/-- The `n` places from `s` on receive the characters of `t` from the `i`-th on, up to a zero, and
then zeros. -/
def strncpy (t : Nat → α) : Nat → Nat → Nat → (Nat → α) → Nat → α
  | 0, _, _, mem => mem
  | n + 1, s, i, mem =>
    if t i = 0 then zeros n (s + 1) (Function.update mem s (t i))
    else strncpy t n (s + 1) (i + 1) (Function.update mem s (t i))

theorem strncpy_out (t : Nat → α) {n s i : Nat} {mem : Nat → α} {o : Nat} (ho : o < s ∨ s + n ≤ o) :
    strncpy t n s i mem o = mem o := by
  induction n generalizing s i mem with
  | zero => rfl
  | succ n ih =>
    rw [strncpy]
    split
    · rw [zeros_apply, if_neg (by omega), Function.update_of_ne (by omega)]
    · rw [ih (by omega), Function.update_of_ne (by omega)]

/-- Inside the bound, characters before the first zero are copied. -/
theorem strncpy_in (t : Nat → α) {n s i : Nat} {mem : Nat → α} {k : Nat} (hk : k < n)
    (hz : ∀ j, j < k → t (i + j) ≠ 0) : strncpy t n s i mem (s + k) = t (i + k) := by
  induction n generalizing s i mem k with
  | zero => omega
  | succ n ih =>
    rw [strncpy]
    cases k with
    | zero =>
      have h0 : s + 0 < s + 1 := by omega
      split
      · rw [zeros_apply, if_neg (by omega), Nat.add_zero, Nat.add_zero, Function.update_self]
      · rw [strncpy_out t (.inl h0), Nat.add_zero, Nat.add_zero, Function.update_self]
    | succ k =>
      have h0 : t i ≠ 0 := hz 0 (by omega)
      rw [if_neg h0, Nat.add_comm k, ← Nat.add_assoc, ← Nat.add_assoc]
      refine ih (by omega) fun j hj => ?_
      rw [Nat.add_assoc]
      exact hz (1 + j) (by omega)

end Strings
