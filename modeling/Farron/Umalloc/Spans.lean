import Mathlib.Data.List.Count
import Mathlib.Data.List.Pairwise

/-! Stretches of memory, counted.

A list of spans is looked at through how often it hits each address (`hits`). Two lists that
hit every address equally often are the same memory, and a list that hits none twice has no
two spans in common (`disjoint_of_hits`). -/
namespace Spans

/-- An address and how much from there on. -/
abbrev Span := Nat × Nat

def Span.Holds (s : Span) (x : Nat) : Prop := s.1 ≤ x ∧ x < s.1 + s.2

instance (s : Span) (x : Nat) : Decidable (s.Holds x) := inferInstanceAs (Decidable (_ ∧ _))

def hits (l : List Span) (x : Nat) : Nat := l.countP fun s => s.Holds x

variable {l l' : List Span} {s t : Span} {a m n x : Nat}

@[simp] theorem hits_nil (x : Nat) : hits [] x = 0 := rfl

@[simp] theorem hits_cons (s : Span) (l : List Span) (x : Nat) :
    hits (s :: l) x = hits l x + if s.Holds x then 1 else 0 := by
  simp [hits, List.countP_cons]

@[simp] theorem hits_append (l l' : List Span) (x : Nat) : hits (l ++ l') x = hits l x + hits l' x := List.countP_append

theorem hits_perm (h : l.Perm l') (x : Nat) : hits l x = hits l' x := h.countP_eq _

theorem hits_pos_iff : 0 < hits l x ↔ ∃ s ∈ l, s.Holds x := by
  simp [hits, List.countP_pos_iff]

theorem hits_eq_zero_iff : hits l x = 0 ↔ ∀ s ∈ l, ¬ s.Holds x := by
  simp [hits, List.countP_eq_zero]

/-- A span, cut in two. -/
theorem holds_cut (a m n x : Nat) :
    (if Span.Holds (a, m + n) x then 1 else 0) =
      (if Span.Holds (a, m) x then 1 else 0) + if Span.Holds (a + m, n) x then 1 else 0 := by
  have hcut : Span.Holds (a, m + n) x ↔ Span.Holds (a, m) x ∨ Span.Holds (a + m, n) x := by
    simp only [Span.Holds]
    omega
  have hnot : ¬ (Span.Holds (a, m) x ∧ Span.Holds (a + m, n) x) := by
    simp only [Span.Holds]
    omega
  by_cases hm : Span.Holds (a, m) x
  · have hn : ¬ Span.Holds (a + m, n) x := fun hn => hnot ⟨hm, hn⟩
    simp [hcut, hm, hn]
  · simp [hcut, hm]

/-- Nothing in common. -/
def Apart (s t : Span) : Prop := s.1 + s.2 ≤ t.1 ∨ t.1 + t.2 ≤ s.1

/-- Where nothing is hit twice, spans that are not empty are apart. -/
theorem disjoint_of_hits (h : ∀ x, hits l x ≤ 1) (hpos : ∀ s ∈ l, 0 < s.2) : l.Pairwise Apart := by
  induction l with
  | nil => exact List.Pairwise.nil
  | cons s l ih =>
    simp only [hits_cons] at h
    refine List.Pairwise.cons (fun t ht => ?_) (ih (fun x => ?_) fun t ht => hpos t (by simp [ht]))
    · by_contra hno
      have hs := hpos s (by simp)
      have ht' := hpos t (by simp [ht])
      unfold Apart at hno
      -- both begin where the later one does
      have hboth : s.Holds (max s.1 t.1) ∧ t.Holds (max s.1 t.1) := by
        unfold Span.Holds
        omega
      have hone := h (max s.1 t.1)
      rw [if_pos hboth.1] at hone
      have hhit : 0 < hits l (max s.1 t.1) := hits_pos_iff.mpr ⟨t, ht, hboth.2⟩
      omega
    · have hone := h x
      omega

end Spans
