import Farron.Kernel.Sleep

/-! What a spin lock protects.

`J` is kept of the data that the lock protects and of what the threads own of it, and a
thread that has not the lock owns something calm. Sleeping and waking change neither,
so these rules ask for nothing but a proof for each section on the data. -/
namespace Farron
open Resumption
variable {L ι χ δ τ α β : Type}

/-- Whether a thread has the spin lock, and what it owns. -/
structure Turn (τ : Type) where
  locked : Bool
  own : τ

structure Guarded (calm : τ → Prop) (J : δ → (ι → τ) → Prop) (w : World ι χ δ) (T : ι → Turn τ) : Prop where
  lk : ∀ i, w.lk = some i ↔ (T i).locked = true
  calm : ∀ i, (T i).locked = false → calm (T i).own
  own : J w.data fun i => (T i).own

namespace Guarded
variable {calm : τ → Prop} {J : δ → (ι → τ) → Prop} {w : World ι χ δ} {T : ι → Turn τ}

/-- The lock keeps all others calm. -/
theorem others (h : Guarded calm J w T) {i j : ι} (hi : (T i).locked = true) (hj : j ≠ i) : calm (T j).own := by
  cases hlk : (T j).locked with
  | false => exact h.calm j hlk
  | true => exact absurd (Option.some.inj (((h.lk j).mpr hlk).symm.trans ((h.lk i).mpr hi))) hj

theorem free (h : Guarded calm J w T) (hlk : w.lk = none) (i : ι) : calm (T i).own := by
  refine h.calm i (Bool.eq_false_iff.mpr fun hi => ?_)
  rw [← h.lk, hlk] at hi
  cases hi

end Guarded

section Rules
variable [DecidableEq ι] (calm : τ → Prop) (J : δ → (ι → τ) → Prop) (ok : Stop → Prop)

/-- Started by thread `i` with `t`, the program keeps the data guarded at each section. -/
abbrev Turns (i : ι) (p : Kernel L ι χ δ α) (t : Turn τ) (Q : α → Turn τ → Prop) : Prop :=
  Triple (Guarded calm J) (fun _ _ => True) (fun _ _ => True) ok i p t Q

variable {calm J ok} {i : ι} {own : τ}

theorem turn_own (T : ι → Turn τ) (t : Turn τ) :
    (fun j => (Function.update T i t j).own) = Function.update (fun j => (T j).own) i t.own := by
  funext j
  by_cases hj : j = i
  · subst hj
    simp only [Function.update_self]
  · simp only [Function.update_of_ne hj]

theorem turn_kept {T : ι → Turn τ} {t : Turn τ} (h : t.own = (T i).own) :
    (fun j => (Function.update T i t j).own) = fun j => (T j).own := by
  rw [turn_own, h]
  exact Function.update_eq_self i fun j => (T j).own

/-- A section that leaves the lock alone. -/
theorem turns_act {l : L} {f : World ι χ δ → Option (World ι χ δ)} {k : World ι χ δ → Kernel L ι χ δ α}
    {t : Turn τ} {Q : α → Turn τ → Prop} (hlk : ∀ w w', f w = some w' → w'.lk = w.lk)
    (h : ∀ w T w', Guarded calm J w T → T i = t → f w = some w' → ∃ own', (t.locked = false → calm own') ∧
      J w'.data (Function.update (fun j => (T j).own) i own') ∧ Turns calm J ok i (k w) ⟨t.locked, own'⟩ Q) :
    Turns calm J ok i (.act l f k) t Q := by
  intro w T w' hI hT _ hf
  obtain ⟨own', hcalm, hJ, hk⟩ := h w T w' hI hT hf
  refine ⟨trivial, ⟨t.locked, own'⟩, ⟨fun j => ?_, fun j hj => ?_, ?_⟩, hk⟩
  · rw [hlk w w' hf, hI.lk]
    by_cases hj : j = i
    · subst hj
      rw [Function.update_self, hT]
    · rw [Function.update_of_ne hj]
  · by_cases hji : j = i
    · subst hji
      rw [Function.update_self] at hj ⊢
      exact hcalm hj
    · rw [Function.update_of_ne hji] at hj ⊢
      exact hI.calm j hj
  · rw [turn_own]
    exact hJ

/-- A section that only looks. -/
theorem turns_look {l : L} {k : World ι χ δ → Kernel L ι χ δ α} {t : Turn τ} {Q : α → Turn τ → Prop}
    (h : ∀ w T, Guarded calm J w T → T i = t → Turns calm J ok i (k w) t Q) :
    Turns calm J ok i (.act l some k) t Q := by
  refine turns_act (fun w w' hf => by cases hf; rfl) fun w T w' hI hT hf => ?_
  cases hf
  refine ⟨t.own, fun hlk => ?_, ?_, h w T hI hT⟩
  · rw [← hT] at hlk ⊢
    exact hI.calm i hlk
  · rw [← hT, Function.update_eq_self i fun j => (T j).own]
    exact hI.own

/-- Nothing but process states. -/
theorem turns_frame {p : Kernel L ι χ δ α} {t : Turn τ}
    (hp : p.Within (fun _ w w' => w'.lk = w.lk ∧ w'.data = w.data) ok) :
    Turns calm J ok i p t fun _ t' => t' = t := by
  refine Triple.within (fun _ w w' T hw hI => ⟨trivial, fun j => ?_, hI.calm, ?_⟩) hp
  · rw [hw.1]
    exact hI.lk j
  · rw [hw.2]
    exact hI.own

variable [Inhabited L]

theorem turns_acquire : Turns calm J ok i (acquire i : Kernel L ι χ δ Unit) ⟨false, own⟩
    fun _ t' => t' = ⟨true, own⟩ := by
  intro w T w' hI hT _ hf
  have hni : w.lk ≠ some i := by
    rw [Ne, hI.lk, hT]
    exact Bool.false_ne_true
  simp only at hf
  by_cases hlk : w.lk = none
  · rw [if_pos hlk] at hf
    cases hf
    refine ⟨trivial, ⟨true, own⟩, ⟨fun j => ?_, fun j hj => ?_, ?_⟩, ?_⟩
    · by_cases hj : j = i
      · subst hj
        simp
      · rw [Function.update_of_ne hj, ← hI.lk, hlk]
        exact ⟨fun h => absurd (Option.some.inj h).symm hj, fun h => nomatch h⟩
    · by_cases hji : j = i
      · subst hji
        rw [Function.update_self] at hj
        cases hj
      · rw [Function.update_of_ne hji] at hj ⊢
        exact hI.calm j hj
    · rw [turn_kept (by rw [hT])]
      exact hI.own
    · simp only [if_neg hni]
      rfl
  · rw [if_neg hlk, if_neg hni] at hf
    cases hf

/-- The lock is given back by a thread that owns something calm. -/
theorem turns_release (hcalm : calm own) : Turns calm J ok i (release i : Kernel L ι χ δ Unit) ⟨true, own⟩
    fun _ t' => t' = ⟨false, own⟩ := by
  intro w T w' hI hT _ hf
  have hlk : w.lk = some i := by
    rw [hI.lk, hT]
  simp only [if_pos hlk] at hf
  cases hf
  refine ⟨trivial, ⟨false, own⟩, ⟨fun j => ?_, fun j hj => ?_, ?_⟩, ?_⟩
  · by_cases hj : j = i
    · subst hj
      simp
    · rw [Function.update_of_ne hj, ← hI.lk, hlk]
      exact ⟨fun h => (nomatch h), fun h => absurd (Option.some.inj h).symm hj⟩
  · by_cases hji : j = i
    · subst hji
      rw [Function.update_self]
      exact hcalm
    · rw [Function.update_of_ne hji] at hj ⊢
      exact hI.calm j hj
  · rw [turn_kept (by rw [hT])]
    exact hI.own
  · simp only [if_pos hlk]
    rfl

omit [Inhabited L] in
/-- Sequencing after a program that returns with a known token. -/
theorem turns_seq {p : Kernel L ι χ δ α} {q : α → Kernel L ι χ δ β} {t t' : Turn τ} {Q : β → Turn τ → Prop}
    (hp : Turns calm J ok i p t fun _ t₁ => t₁ = t') (hq : ∀ a, Turns calm J ok i (q a) t' Q) :
    Turns calm J ok i (p >>= q) t Q := by
  refine Triple.bind hp fun a t₁ ht => ?_
  rw [ht]
  exact hq a

omit [Inhabited L] in
/-- A change of process states. -/
theorem turns_procs {l : L} {f : World ι χ δ → World ι χ δ} {t : Turn τ}
    (hf : ∀ w, (f w).lk = w.lk ∧ (f w).data = w.data) :
    Turns calm J ok i (.change l f) t fun _ t' => t' = t := by
  refine turns_frame ⟨fun w w' h => ?_, fun _ => trivial⟩
  cases h
  exact hf w

/-- `sleep` gives the lock back and takes it again. -/
theorem turns_sleep (hcalm : calm own) (c : χ) : Turns calm J ok i (sleep i c : Kernel L ι χ δ Unit) ⟨true, own⟩
    fun _ t' => t' = ⟨true, own⟩ := by
  refine turns_seq (turns_frame ⟨fun w w' hf => ?_, fun _ => trivial⟩) fun _ => turns_seq (turns_release hcalm) fun _ =>
    turns_seq (turns_procs fun _ => ⟨rfl, rfl⟩) fun _ => turns_seq (turns_procs fun _ => ⟨rfl, rfl⟩) fun _ =>
    turns_seq (turns_frame ⟨fun w w' hf => ?_, fun _ => trivial⟩) fun _ =>
    turns_seq (turns_procs fun _ => ⟨rfl, rfl⟩) fun _ => turns_seq (turns_procs fun _ => ⟨rfl, rfl⟩) fun _ => turns_acquire
  all_goals
    simp only at hf
    split_ifs at hf
    cases hf
    exact ⟨rfl, rfl⟩

theorem turns_wakeup [DecidableEq χ] (c : χ) (l : List ι) {t : Turn τ} :
    Turns calm J ok i (wakeup c l : Kernel L ι χ δ Unit) t fun _ t' => t' = t := by
  refine turns_frame ?_
  induction l with
  | nil => trivial
  | cons j l ih =>
    refine ⟨fun w w' hf => ?_, fun _ => ih⟩
    simp only at hf
    split_ifs at hf
    cases hf
    exact ⟨rfl, rfl⟩

end Rules
end Farron
