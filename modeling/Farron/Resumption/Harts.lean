import Farron.Resumption.Interleave

/-! Threads on several processors.

Threads of control run programs, but only where a hart executes them: a step is made by one
hart, whose `turn` it is, and performs the next section of the thread that it executes.
Which thread that is, is part of the state, so a section can switch it. While
interrupts are on a hart may also be interrupted; it then runs the thread's `trap`
before the rest of its program. `Covered` and `Triple` are those of `Resumption.Interleave`,
with the condition that the thread is the one running. -/
namespace Resumption

/-- Threads `θ` on harts `H`, with interrupts `irq`. -/
structure HartClient (L ε σ H θ irq loc call : Type) where
  enabled : θ → loc → call → Prop
  body : θ → loc → call → Prog L ε σ loc
  turn : H → σ → σ
  runs : θ → σ → Prop
  interruptible : σ → Prop
  trap : irq → Prog L ε σ Unit

variable {L ε σ H θ irq loc call : Type} [DecidableEq θ]

/-- One step of a hart. -/
inductive HartStep (M : HartClient L ε σ H θ irq loc call) : Config L ε σ θ loc → Config L ε σ θ loc → Prop
  | begin (g : Config L ε σ θ loc) (h : H) (i : θ) (hr : M.runs i (M.turn h g.shared)) (l : loc) (c : call)
      (hi : g.thread i = .ret l) (he : M.enabled i l c) :
      HartStep M g ⟨g.shared, Function.update g.thread i (M.body i l c)⟩
  | act (g : Config L ε σ θ loc) (h : H) (i : θ) (hr : M.runs i (M.turn h g.shared)) (l : L) (f : σ → Option σ)
      (k : σ → Prog L ε σ loc) (s' : σ) (hi : g.thread i = .act l f k) (hf : f (M.turn h g.shared) = some s') :
      HartStep M g ⟨s', Function.update g.thread i (k (M.turn h g.shared))⟩
  | trap (g : Config L ε σ θ loc) (h : H) (i : θ) (hr : M.runs i (M.turn h g.shared))
      (ho : M.interruptible (M.turn h g.shared)) (q : irq) :
      HartStep M g ⟨g.shared, Function.update g.thread i (M.trap q >>= fun _ => g.thread i)⟩

inductive HartReach (M : HartClient L ε σ H θ irq loc call) (g₀ : Config L ε σ θ loc) : Config L ε σ θ loc → Prop
  | refl : HartReach M g₀ g₀
  | step {g g' : Config L ε σ θ loc} : HartReach M g₀ g → HartStep M g g' → HartReach M g₀ g'

section Soundness
variable {τ : Type} {M : HartClient L ε σ H θ irq loc call} {inv : σ → (θ → τ) → Prop} {ok : ε → Prop}
variable {tok : θ → loc → τ → Prop}

/-- The triple of a thread whose sections are made where it runs. -/
abbrev HartTriple (M : HartClient L ε σ H θ irq loc call) (inv : σ → (θ → τ) → Prop) (ok : ε → Prop) (i : θ) {α : Type}
    (p : Prog L ε σ α) (t : τ) (Q : α → τ → Prop) : Prop :=
  Triple inv (fun _ => M.runs i) (fun _ _ => True) ok i p t Q

/-- What a proof about all runs supplies: each call has its triple, turns do not matter to the
invariant, and where a thread can be interrupted its trap keeps the token. -/
structure HartKeeps (M : HartClient L ε σ H θ irq loc call) (inv : σ → (θ → τ) → Prop) (ok : ε → Prop)
    (tok : θ → loc → τ → Prop) : Prop where
  call : ∀ i l c t, M.enabled i l c → tok i l t → HartTriple M inv ok i (M.body i l c) t (tok i)
  turn : ∀ h s T, inv s T → inv (M.turn h s) T
  trap : ∀ s T i q, inv s T → M.runs i s → M.interruptible s →
    HartTriple M inv ok i (M.trap q) (T i) fun _ t' => t' = T i

/-- A configuration under the invariant. -/
def HartCovered (M : HartClient L ε σ H θ irq loc call) (inv : σ → (θ → τ) → Prop) (ok : ε → Prop)
    (tok : θ → loc → τ → Prop) (g : Config L ε σ θ loc) : Prop :=
  ∃ T, inv g.shared T ∧ ∀ i, HartTriple M inv ok i (g.thread i) (T i) (tok i)

theorem HartCovered.step (hM : HartKeeps M inv ok tok) {g g' : Config L ε σ θ loc}
    (hg : HartCovered M inv ok tok g) (hs : HartStep M g g') : HartCovered M inv ok tok g' := by
  obtain ⟨T, hI, hT⟩ := hg
  cases hs with
  | begin h i hr l c hi he =>
    have ht := hT i
    rw [hi] at ht
    refine ⟨T, hI, fun j => ?_⟩
    by_cases hj : j = i
    · subst hj
      simp only [Function.update_self]
      exact hM.call j l c (T j) he ht
    · simp only [Function.update_of_ne hj]
      exact hT j
  | act h i hr l f k s' hi hf =>
    have ht := hT i
    rw [hi] at ht
    obtain ⟨_, t', hI', hk⟩ := ht _ T s' (hM.turn h _ T hI) rfl hr hf
    refine ⟨_, hI', fun j => ?_⟩
    by_cases hj : j = i
    · subst hj
      simp only [Function.update_self]
      exact hk
    · simp only [Function.update_of_ne hj]
      exact hT j
  | trap h i hr ho q =>
    refine ⟨T, hI, fun j => ?_⟩
    by_cases hj : j = i
    · subst hj
      simp only [Function.update_self]
      apply (hM.trap _ T j q (hM.turn h _ T hI) hr ho).bind
      intro _ t' ht'
      subst ht'
      exact hT j
    · simp only [Function.update_of_ne hj]
      exact hT j

/-- **Soundness.** Every configuration reached is covered. -/
theorem HartReach.sound (hM : HartKeeps M inv ok tok) {g₀ g : Config L ε σ θ loc}
    (h₀ : HartCovered M inv ok tok g₀) (h : HartReach M g₀ g) : HartCovered M inv ok tok g := by
  induction h with
  | refl => exact h₀
  | step _ hs ih => exact ih.step hM hs

/-- No thread of a covered configuration has stopped for another reason than those in `ok`. -/
theorem HartCovered.stop {T : θ → τ} {g : Config L ε σ θ loc}
    (hT : ∀ i, HartTriple M inv ok i (g.thread i) (T i) (tok i)) {i : θ} {e : ε} (hi : g.thread i = .stop e) : ok e := by
  have ht := hT i
  rw [hi] at ht
  exact ht

theorem HartCovered.idle {T : θ → τ} {g : Config L ε σ θ loc}
    (hT : ∀ i, HartTriple M inv ok i (g.thread i) (T i) (tok i)) {i : θ} {l : loc} (hi : g.thread i = .ret l) :
    tok i l (T i) := by
  have ht := hT i
  rw [hi] at ht
  exact ht

end Soundness

/-! ### Schedules -/

section Play
variable (M : HartClient L ε σ H θ irq loc call) [∀ i l c, Decidable (M.enabled i l c)] [∀ i s, Decidable (M.runs i s)]

/-- A hart's next move: the thread it executes begins a call, or makes some sections. -/
inductive HartMove (H θ call : Type)
  | begin (h : H) (i : θ) (c : call)
  | acts (h : H) (i : θ) (n : Nat)

omit [∀ i l c, Decidable (M.enabled i l c)] in
def Config.hartActs (g : Config L ε σ θ loc) (h : H) (i : θ) : Nat → Option (Config L ε σ θ loc)
  | 0 => some g
  | n + 1 =>
    match g.thread i with
    | .act _ f k => if M.runs i (M.turn h g.shared) then
        (f (M.turn h g.shared)).bind fun s' =>
          Config.hartActs ⟨s', Function.update g.thread i (k (M.turn h g.shared))⟩ h i n
      else none
    | _ => none

def Config.hartMove (g : Config L ε σ θ loc) : HartMove H θ call → Option (Config L ε σ θ loc)
  | .begin h i c => match g.thread i with
    | .ret l => if M.runs i (M.turn h g.shared) ∧ M.enabled i l c then
        some ⟨g.shared, Function.update g.thread i (M.body i l c)⟩ else none
    | _ => none
  | .acts h i n => g.hartActs M h i n

def Config.hartPlay (g : Config L ε σ θ loc) : List (HartMove H θ call) → Option (Config L ε σ θ loc)
  | [] => some g
  | m :: ms => (g.hartMove M m).bind fun g' => g'.hartPlay ms

variable {M} {g₀ g g' : Config L ε σ θ loc}

omit [∀ i l c, Decidable (M.enabled i l c)] in
theorem HartReach.acts (hg : HartReach M g₀ g) {h : H} {i : θ} {n : Nat} (ha : g.hartActs M h i n = some g') :
    HartReach M g₀ g' := by
  induction n generalizing g with
  | zero =>
    cases ha
    exact hg
  | succ n ih =>
    unfold Config.hartActs at ha
    cases hi : g.thread i with
    | ret a =>
      simp only [hi] at ha
      cases ha
    | stop e =>
      simp only [hi] at ha
      cases ha
    | act l f k =>
      simp only [hi] at ha
      by_cases hr : M.runs i (M.turn h g.shared)
      · rw [if_pos hr] at ha
        obtain ⟨s', hf, ha⟩ := Option.bind_eq_some_iff.mp ha
        exact ih (hg.step (.act g h i hr l f k s' hi hf)) ha
      · rw [if_neg hr] at ha
        cases ha

theorem HartReach.move (hg : HartReach M g₀ g) {m : HartMove H θ call} (hm : g.hartMove M m = some g') :
    HartReach M g₀ g' := by
  cases m with
  | acts h i n => exact hg.acts hm
  | begin h i c =>
    unfold Config.hartMove at hm
    cases hi : g.thread i with
    | ret l =>
      simp only [hi] at hm
      by_cases he : M.runs i (M.turn h g.shared) ∧ M.enabled i l c
      · rw [if_pos he] at hm
        cases hm
        exact hg.step (.begin g h i he.1 l c hi he.2)
      · rw [if_neg he] at hm
        cases hm
    | act l f k =>
      simp only [hi] at hm
      cases hm
    | stop e =>
      simp only [hi] at hm
      cases hm

theorem HartReach.play (hg : HartReach M g₀ g) {ms : List (HartMove H θ call)} (hm : g.hartPlay M ms = some g') :
    HartReach M g₀ g' := by
  induction ms generalizing g with
  | nil =>
    cases hm
    exact hg
  | cons m ms ih =>
    obtain ⟨g₁, h1, h2⟩ := Option.bind_eq_some_iff.mp hm
    exact ih (hg.move h1) h2

/-- A schedule shows that a configuration that passes a test is reached. -/
theorem HartReach.of_play (ms : List (HartMove H θ call)) {P : Config L ε σ θ loc → Prop} [DecidablePred P]
    (h : ((g₀.hartPlay M ms).any fun g => decide (P g)) = true) : ∃ g, HartReach M g₀ g ∧ P g := by
  rw [Option.any_eq_true] at h
  obtain ⟨g, hg, hP⟩ := h
  exact ⟨g, HartReach.play .refl hg, of_decide_eq_true hP⟩

end Play
end Resumption
