import Farron.Resumption.Alone
import Farron.Resumption.Harts

/-! Conditions on the sections of runs on harts.

The labels of a program say which sections a condition is about; where a proof does not ask for the
label, another labelling of the program has the same triples (`Triple.relabel_iff`). A program under a
guard makes only sections that meet a condition (`Prog.guard`), so the runs of a client under it are the runs in
which every section does. -/
namespace Resumption
variable {L L' ε σ α β : Type}

namespace Prog

/-- A section waits until it meets `C`. -/
def guard (C : L → σ → Prop) [∀ l s, Decidable (C l s)] : Prog L ε σ α → Prog L ε σ α
  | .ret a => .ret a
  | .act l f k => .act l (fun s => if C l s then f s else none) fun s => (k s).guard C
  | .stop e => .stop e

theorem relabel_bind (r : L → L') (p : Prog L ε σ α) (q : α → Prog L ε σ β) :
    (p >>= q).relabel r = p.relabel r >>= fun a => (q a).relabel r := by
  induction p with
  | ret a => rfl
  | act l f k ih => exact congrArg (Prog.act (r l) f) (funext ih)
  | stop e => rfl

theorem relabel_relabel {L'' : Type} (r : L → L') (r' : L' → L'') (p : Prog L ε σ α) :
    (p.relabel r).relabel r' = p.relabel fun l => r' (r l) := by
  induction p with
  | ret a => rfl
  | act l f k ih => exact congrArg (Prog.act (r' (r l)) f) (funext ih)
  | stop e => rfl

theorem relabel_id (p : Prog L ε σ α) : p.relabel (fun l => l) = p := by
  induction p with
  | ret a => rfl
  | act l f k ih => exact congrArg (Prog.act l f) (funext ih)
  | stop e => rfl

section Within
variable {R : L → σ → σ → Prop} {ok : ε → Prop}

theorem Within.relabel {r : L' → L} {p : Prog L' ε σ α} (hp : p.Within (fun l => R (r l)) ok) : (p.relabel r).Within R ok := by
  induction p with
  | ret a => trivial
  | act l f k ih => exact ⟨hp.1, fun s => ih s (hp.2 s)⟩
  | stop e => exact hp

theorem Within.guard {C : L → σ → Prop} [∀ l s, Decidable (C l s)] {p : Prog L ε σ α} (hp : p.Within R ok) :
    (p.guard C).Within (fun l s s' => R l s s' ∧ C l s) ok := by
  induction p with
  | ret a => trivial
  | act l f k ih =>
    refine ⟨fun s s' hf => ?_, fun s => ih s (hp.2 s)⟩
    have hf : (if C l s then f s else none) = some s' := hf
    by_cases hC : C l s
    · rw [if_pos hC] at hf
      exact ⟨hp.1 s s' hf, hC⟩
    · rw [if_neg hC] at hf
      cases hf
  | stop e => exact hp

end Within
end Prog

section Triples
variable {ι τ : Type} [DecidableEq ι] {inv : σ → (ι → τ) → Prop} {ok : ε → Prop} {i : ι} {t : τ} {Q : α → τ → Prop}

theorem Triple.relabel_iff {D : σ → Prop} (r : L → L') (p : Prog L ε σ α) :
    Triple inv (fun _ => D) (fun _ _ => True) ok i (p.relabel r) t Q ↔ Triple inv (fun _ => D) (fun _ _ => True) ok i p t Q := by
  induction p generalizing t with
  | ret a => exact Iff.rfl
  | act l f k ih =>
    constructor
    · intro h s T s' hI hT hD hf
      obtain ⟨_, t', hI', hk⟩ := h s T s' hI hT hD hf
      exact ⟨trivial, t', hI', (ih s).mp hk⟩
    · intro h s T s' hI hT hD hf
      obtain ⟨_, t', hI', hk⟩ := h s T s' hI hT hD hf
      exact ⟨trivial, t', hI', (ih s).mpr hk⟩
  | stop e => exact Iff.rfl

theorem Triple.guard {C D : L → σ → Prop} [∀ l s, Decidable (C l s)] {p : Prog L ε σ α}
    (h : Triple inv D (fun _ _ => True) ok i p t Q) : Triple inv D (fun _ _ => True) ok i (p.guard C) t Q := by
  induction p generalizing t with
  | ret a => exact h
  | act l f k ih =>
    intro s T s' hI hT hD hf
    by_cases hC : C l s
    · have hf : f s = some s' := (if_pos hC).symm.trans hf
      obtain ⟨_, t', hI', hk⟩ := h s T s' hI hT hD hf
      exact ⟨trivial, t', hI', ih s hk⟩
    · have hf : none = some s' := (if_neg hC).symm.trans hf
      cases hf
  | stop e => exact h

end Triples

section Harts
variable {H θ irq loc call : Type} [DecidableEq θ]

/-- The runs in which every section meets `C`. -/
def HartClient.guard (M : HartClient L ε σ H θ irq loc call) (C : L → σ → Prop) [∀ l s, Decidable (C l s)] :
    HartClient L ε σ H θ irq loc call :=
  { M with
    body := fun x l c => (M.body x l c).guard C
    trap := fun q => (M.trap q).guard C }

theorem HartKeeps.guard {τ : Type} {M : HartClient L ε σ H θ irq loc call} {inv : σ → (θ → τ) → Prop} {ok : ε → Prop}
    {tok : θ → loc → τ → Prop} (h : HartKeeps M inv ok tok) (C : L → σ → Prop) [∀ l s, Decidable (C l s)] :
    HartKeeps (M.guard C) inv ok tok where
  call x l c t he ht := (h.call x l c t he ht).guard
  turn := h.turn
  trap s T x q hI hr ho := (h.trap s T x q hI hr ho).guard

/-- If every call's sections are within a relation, for its thread, so are all that are left to make. -/
theorem HartReach.within {M : HartClient L ε σ H θ irq loc call} {R : θ → L → σ → σ → Prop} {ok : ε → Prop}
    (hbody : ∀ x l c, (M.body x l c).Within (R x) ok) (htrap : ∀ x q, (M.trap q).Within (R x) ok) {g₀ g : Config L ε σ θ loc}
    (h₀ : ∀ x, (g₀.thread x).Within (R x) ok) (h : HartReach M g₀ g) : ∀ x, (g.thread x).Within (R x) ok := by
  induction h with
  | refl => exact h₀
  | step _ hs ih =>
    intro y
    cases hs with
    | begin h x hr l c hi he =>
      by_cases hy : y = x
      · subst hy
        simp only [Function.update_self]
        exact hbody y l c
      · simp only [Function.update_of_ne hy]
        exact ih y
    | act h x hr l f k s' hi hf =>
      have hw := ih x
      rw [hi] at hw
      by_cases hy : y = x
      · subst hy
        simp only [Function.update_self]
        exact hw.2 _
      · simp only [Function.update_of_ne hy]
        exact ih y
    | trap h x hr ho q =>
      by_cases hy : y = x
      · subst hy
        simp only [Function.update_self]
        exact (htrap y q).bind fun _ => ih y
      · simp only [Function.update_of_ne hy]
        exact ih y

end Harts
end Resumption
