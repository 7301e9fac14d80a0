import Mathlib.Data.List.Basic
import Mathlib.Data.List.Nodup
import Mathlib.Data.List.Perm.Basic
import Mathlib.Logic.Function.Iterate

/-! Circular lists threaded through a successor table.

`Path next a l b` says that the table leads from `a` through the keys `l`, in order, to `b`. A
circle is a path from a key to itself, and can be entered at any of its keys (`circle_append`).
A search that follows the table around a circle ends at the one key it is looking for
(`scan_path`). -/
namespace Chains
variable {κ : Type} {next next' : κ → κ} {a a' b c : κ} {xs ys : List κ}

def Path (next : κ → κ) : κ → List κ → κ → Prop
  | a, [], b => next a = b
  | a, x :: xs, b => next a = x ∧ Path next x xs b

@[simp] theorem path_nil : Path next a [] b ↔ next a = b := Iff.rfl
@[simp] theorem path_cons : Path next a (c :: xs) b ↔ next a = c ∧ Path next c xs b := Iff.rfl

theorem path_append : Path next a (xs ++ c :: ys) b ↔ Path next a xs c ∧ Path next c ys b := by
  induction xs generalizing a with
  | nil => simp
  | cons x xs ih => simp [ih, and_assoc]

/-- The same keys, entered from another one. -/
theorem Path.enter (h : Path next a xs b) (ha : next' a' = next a) (hxs : ∀ x ∈ xs, next' x = next x) :
    Path next' a' xs b := by
  induction xs generalizing a a' with
  | nil => exact ha.trans h
  | cons x xs ih =>
    obtain ⟨hx, hrest⟩ := h
    exact ⟨ha.trans hx, ih hrest (hxs x (by simp)) fun y hy => hxs y (by simp [hy])⟩

theorem Path.congr (h : Path next a xs b) (hn : ∀ x ∈ a :: xs, next' x = next x) : Path next' a xs b :=
  h.enter (hn a (by simp)) fun x hx => hn x (by simp [hx])

/-- The keys of `l`, in order, and the first one again behind the last. -/
def Circle (next : κ → κ) : List κ → Prop
  | [] => True
  | a :: l => Path next a l a

/-- A circle from any of its keys. -/
theorem circle_append : Circle next (xs ++ c :: ys) ↔ Path next c (ys ++ xs) c := by
  cases xs with
  | nil => simp [Circle]
  | cons x xs => simp [Circle, path_append, and_comm]

/-- The key behind one that is not the last. -/
theorem Circle.next_eq (h : Circle next (xs ++ c :: b :: ys)) : next c = b := by
  rw [circle_append] at h
  exact h.1

/-- Behind the last key comes the first. -/
theorem Circle.next_last (h : Circle next (xs ++ [c])) : next c = (xs ++ [c]).head (by simp) := by
  rw [circle_append] at h
  cases xs with
  | nil => exact h
  | cons x xs => exact h.1

theorem Circle.path (h : Circle next xs) (hc : c ∈ xs) : ∃ ys, Path next c ys c ∧ (c :: ys).Perm xs := by
  obtain ⟨us, vs, rfl⟩ := List.append_of_mem hc
  refine ⟨vs ++ us, circle_append.mp h, ?_⟩
  simpa using (List.perm_append_comm : (c :: vs ++ us).Perm (us ++ c :: vs))

/-- A key on a path is so many steps from where the path begins. -/
theorem Path.steps (h : Path next a xs b) (hc : c ∈ a :: xs) : ∃ n, next^[n] a = c := by
  induction xs generalizing a with
  | nil =>
    obtain rfl : c = a := by simpa using hc
    exact ⟨0, rfl⟩
  | cons x xs ih =>
    rcases List.mem_cons.mp hc with rfl | hc
    · exact ⟨0, rfl⟩
    · obtain ⟨n, hn⟩ := ih h.2 hc
      refine ⟨n + 1, ?_⟩
      rw [Function.iterate_succ_apply, h.1]
      exact hn

/-- No step leads off a circle. -/
theorem Circle.next_mem (h : Circle next xs) (hc : c ∈ xs) : next c ∈ xs := by
  obtain ⟨ys, hpath, hperm⟩ := h.path hc
  rw [← hperm.mem_iff]
  cases ys with
  | nil => simp [show next c = c from hpath]
  | cons y ys => simp [hpath.1]

theorem Circle.steps_mem (h : Circle next xs) (hc : c ∈ xs) (n : Nat) : next^[n] c ∈ xs := by
  induction n with
  | zero => exact hc
  | succ n ih =>
    rw [Function.iterate_succ_apply']
    exact h.next_mem ih

/-- A search along the table. -/
def scan (next : κ → κ) (stop : κ → Prop) [DecidablePred stop] : Nat → κ → Option κ
  | 0, _ => none
  | rounds + 1, p => if stop p then some p else scan next stop rounds (next p)

theorem scan_path {stop : κ → Prop} [DecidablePred stop] {rounds : Nat} (h : Path next a xs b) (hc : c ∈ a :: xs)
    (hstop : stop c) (hone : ∀ x ∈ a :: xs, stop x → x = c) (hr : xs.length < rounds) :
    scan next stop rounds a = some c := by
  induction xs generalizing a rounds with
  | nil =>
    obtain ⟨rounds, rfl⟩ := Nat.exists_eq_succ_of_ne_zero (Nat.ne_zero_of_lt hr)
    obtain rfl : c = a := by simpa using hc
    simp [scan, hstop]
  | cons x xs ih =>
    obtain ⟨rounds, rfl⟩ := Nat.exists_eq_succ_of_ne_zero (Nat.ne_zero_of_lt hr)
    obtain ⟨hx, hrest⟩ := h
    by_cases ha : stop a
    · obtain rfl := hone a (by simp) ha
      simp [scan, ha]
    · have hca : c ≠ a := fun hca => ha (hca ▸ hstop)
      have hc' : c ∈ x :: xs := by simpa [hca] using hc
      simp only [scan, ha, if_false, hx]
      exact ih hrest hc' (fun y hy => hone y (by simp [hy])) (by simpa using hr)

end Chains
