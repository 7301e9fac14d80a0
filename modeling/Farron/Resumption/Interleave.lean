import Farron.Resumption.Program
import Mathlib.Algebra.Order.Ring.Nat

/-! Interleavings of programs, and a proof rule for their invariants.

Each process holds a local value while it is idle and runs a program that ends in
one while it is in a call (`Client`). A step begins a call, passes something
between two idle processes, or performs the next section of one process's
program (`Step`); `Reach C` are the configurations reached by steps whose
sections all start in a state that meets `C`, so with `C` always true it is every
interleaving.

An invariant of a configuration is stated over the shared state and one ghost
token a process (`inv : σ → (ι → τ) → Prop`). `Triple` says that a program started
with a token keeps the invariant at every section, whatever the others did
before it, updating only its own token, and that each section starts in a state
that meets `G`. Triples compose (`Triple.bind`), so each function of a program
needs one; `Reach.sound` turns the triples of the calls into a fact about every
reachable configuration, `Covered.next` into one about every section. -/
namespace Resumption

/-- What processes of type `ι` may do: a process with local value `l` that is idle
may begin any enabled call, whose program ends in the next local value, and two
idle processes may hand something over. -/
structure Client (L ε σ ι loc call : Type) where
  enabled : loc → call → Prop
  body : ι → loc → call → Prog L ε σ loc
  pass : loc → loc → loc → loc → Prop

structure Config (L ε σ ι loc : Type) where
  shared : σ
  thread : ι → Prog L ε σ loc

section Steps
variable {L ε σ ι loc call : Type} [DecidableEq ι]

/-- One step of an interleaving. -/
inductive Step (M : Client L ε σ ι loc call) (C : L → σ → Prop) :
    Config L ε σ ι loc → Config L ε σ ι loc → Prop
  | begin (g : Config L ε σ ι loc) (i : ι) (l : loc) (c : call) (hi : g.thread i = .ret l)
      (he : M.enabled l c) :
      Step M C g ⟨g.shared, Function.update g.thread i (M.body i l c)⟩
  | pass (g : Config L ε σ ι loc) (i j : ι) (hij : i ≠ j) (li lj li' lj' : loc)
      (hi : g.thread i = .ret li) (hj : g.thread j = .ret lj) (hp : M.pass li lj li' lj') :
      Step M C g ⟨g.shared,
        Function.update (Function.update g.thread i (.ret li')) j (.ret lj')⟩
  | act (g : Config L ε σ ι loc) (i : ι) (l : L) (f : σ → Option σ) (k : σ → Prog L ε σ loc)
      (s' : σ) (hi : g.thread i = .act l f k) (hc : C l g.shared) (hf : f g.shared = some s') :
      Step M C g ⟨s', Function.update g.thread i (k g.shared)⟩

/-- Reached by steps whose sections all meet `C`. -/
inductive Reach (M : Client L ε σ ι loc call) (C : L → σ → Prop) (g₀ : Config L ε σ ι loc) :
    Config L ε σ ι loc → Prop
  | refl : Reach M C g₀ g₀
  | step {g g' : Config L ε σ ι loc} : Reach M C g₀ g → Step M C g g' → Reach M C g₀ g'

theorem Reach.trans {M : Client L ε σ ι loc call} {C : L → σ → Prop} {g₀ g g' : Config L ε σ ι loc}
    (h : Reach M C g₀ g) (h' : Reach M C g g') : Reach M C g₀ g' := by
  induction h' with
  | refl => exact h
  | step _ hs ih => exact ih.step hs

/-- If every call's sections are within `R`, so are all that are left to make. -/
theorem Reach.within {M : Client L ε σ ι loc call} {C : L → σ → Prop} {R : L → σ → σ → Prop} {ok : ε → Prop}
    (hbody : ∀ i l c, (M.body i l c).Within R ok) {g₀ g : Config L ε σ ι loc}
    (h₀ : ∀ i, (g₀.thread i).Within R ok) (h : Reach M C g₀ g) : ∀ i, (g.thread i).Within R ok := by
  induction h with
  | refl => exact h₀
  | step _ hs ih =>
    intro j
    cases hs with
    | begin i l c hi he =>
      by_cases hj : j = i
      · subst hj
        simp only [Function.update_self]
        exact hbody j l c
      · simp only [Function.update_of_ne hj]
        exact ih j
    | pass i k hik li lk li' lk' hi hk hp =>
      by_cases hjk : j = k
      · subst hjk
        simp only [Function.update_self]
        trivial
      · by_cases hji : j = i
        · subst hji
          simp only [Function.update_of_ne hjk, Function.update_self]
          trivial
        · simp only [Function.update_of_ne hjk, Function.update_of_ne hji]
          exact ih j
    | act i l f k s' hi hc hf =>
      have hw := ih i
      rw [hi] at hw
      by_cases hj : j = i
      · subst hj
        simp only [Function.update_self]
        exact hw.2 _
      · simp only [Function.update_of_ne hj]
        exact ih j

/-- A step leaves the state alone or is one of these sections. -/
theorem Step.within {M : Client L ε σ ι loc call} {C : L → σ → Prop} {R : L → σ → σ → Prop} {ok : ε → Prop}
    {g g' : Config L ε σ ι loc} (h : ∀ i, (g.thread i).Within R ok) (hs : Step M C g g') :
    g'.shared = g.shared ∨ ∃ l, R l g.shared g'.shared := by
  cases hs with
  | begin i l c hi he => exact .inl rfl
  | pass i j hij li lj li' lj' hi hj hp => exact .inl rfl
  | act i l f k s' hi hc hf =>
    have hw := h i
    rw [hi] at hw
    exact .inr ⟨l, hw.1 _ _ hf⟩

/-- What every section keeps holds throughout, and may be a condition on the run. -/
theorem Reach.keep {M : Client L ε σ ι loc call} {C : L → σ → Prop} {R : L → σ → σ → Prop} {ok : ε → Prop} {P : σ → Prop}
    (hbody : ∀ i l c, (M.body i l c).Within R ok) (hR : ∀ l s s', R l s s' → P s → P s') {g₀ g : Config L ε σ ι loc}
    (h₀ : ∀ i, (g₀.thread i).Within R ok) (hP : P g₀.shared) (h : Reach M C g₀ g) :
    P g.shared ∧ Reach M (fun l s => C l s ∧ P s) g₀ g := by
  induction h with
  | refl => exact ⟨hP, .refl⟩
  | step hr hs ih =>
    obtain ⟨hP', hr'⟩ := ih
    refine ⟨?_, hr'.step ?_⟩
    · obtain he | ⟨l, hl⟩ := hs.within (hr.within hbody h₀)
      · rw [he]
        exact hP'
      · exact hR l _ _ hl hP'
    · cases hs with
      | begin i l c hi he => exact .begin _ i l c hi he
      | pass i j hij li lj li' lj' hi hj hp => exact .pass _ i j hij li lj li' lj' hi hj hp
      | act i l f k s' hi hc hf => exact .act _ i l f k s' hi ⟨hc, hP'⟩ hf

/-- A process whose program runs through while the others wait. -/
theorem Reach.runOn {M : Client L ε σ ι loc call} {C : L → σ → Prop} {g₀ g : Config L ε σ ι loc}
    (h : Reach M C g₀ g) (i : ι) {p : Prog L ε σ loc} (hp : g.thread i = p) {a : loc} {s' : σ}
    (hrun : p.run g.shared = .done a s') (hsteps : p.Steps C g.shared) :
    Reach M C g₀ ⟨s', Function.update g.thread i (.ret a)⟩ := by
  induction p generalizing g with
  | ret b =>
    cases hrun
    rw [← hp, Function.update_eq_self]
    exact h
  | act l f k ih =>
    rw [Prog.run_act] at hrun
    cases hf : f g.shared with
    | none =>
      rw [hf] at hrun
      cases hrun
    | some s₁ =>
      rw [hf] at hrun
      have hstep := Reach.step h (.act g i l f k s₁ hp hsteps.1 hf)
      have := ih g.shared hstep (Function.update_self ..) hrun (hsteps.2 s₁ hf)
      rw [Function.update_idem] at this
      exact this
  | stop e => cases hrun

/-- An idle process makes a whole call while the others wait. -/
theorem Reach.callOn {M : Client L ε σ ι loc call} {C : L → σ → Prop} {g₀ g : Config L ε σ ι loc}
    (h : Reach M C g₀ g) (i : ι) {l : loc} (hi : g.thread i = .ret l) {c : call} (he : M.enabled l c)
    {a : loc} {s' : σ} (hrun : (M.body i l c).run g.shared = .done a s')
    (hsteps : (M.body i l c).Steps C g.shared) {thread : ι → Prog L ε σ loc}
    (ht : Function.update g.thread i (.ret a) = thread) : Reach M C g₀ ⟨s', thread⟩ := by
  have hbegin := Reach.step h (.begin g i l c hi he)
  have := hbegin.runOn i (Function.update_self ..) hrun hsteps
  rw [Function.update_idem, ht] at this
  exact this

/-! ### Schedules -/

/-- What a scheduler decides: who begins which call, who hands something to whom, and how
many sections a process makes. -/
inductive Move (ι loc call : Type)
  | begin (i : ι) (c : call)
  | pass (i j : ι) (li' lj' : loc)
  | acts (i : ι) (n : Nat)

/-! The threads of a schedule are named by their numbers. -/

instance neZero_two : NeZero 2 := ⟨by decide⟩

instance neZero_three : NeZero 3 := ⟨by decide⟩

section Play
variable (M : Client L ε σ ι loc call) (C : L → σ → Prop) [∀ l s, Decidable (C l s)]

def Config.act (g : Config L ε σ ι loc) (i : ι) : Option (Config L ε σ ι loc) :=
  match g.thread i with
  | .act l f k => if C l g.shared then
      (f g.shared).map fun s' => ⟨s', Function.update g.thread i (k g.shared)⟩
    else none
  | _ => none

def Config.acts (g : Config L ε σ ι loc) (i : ι) : Nat → Option (Config L ε σ ι loc)
  | 0 => some g
  | n + 1 => (g.act C i).bind fun g' => g'.acts i n

variable [∀ l c, Decidable (M.enabled l c)] [∀ li lj li' lj', Decidable (M.pass li lj li' lj')]

/-- The next configuration, if the move is possible and its sections meet `C`. -/
def Config.move (g : Config L ε σ ι loc) : Move ι loc call → Option (Config L ε σ ι loc)
  | .begin i c => match g.thread i with
    | .ret l => if M.enabled l c then some ⟨g.shared, Function.update g.thread i (M.body i l c)⟩ else none
    | _ => none
  | .pass i j li' lj' => match g.thread i, g.thread j with
    | .ret li, .ret lj => if i ≠ j ∧ M.pass li lj li' lj' then
        some ⟨g.shared, Function.update (Function.update g.thread i (.ret li')) j (.ret lj')⟩ else none
    | _, _ => none
  | .acts i n => g.acts C i n

def Config.play (g : Config L ε σ ι loc) : List (Move ι loc call) → Option (Config L ε σ ι loc)
  | [] => some g
  | m :: ms => (g.move M C m).bind fun g' => g'.play ms

variable {M C} {g₀ g g' : Config L ε σ ι loc}

omit [∀ l c, Decidable (M.enabled l c)] [∀ li lj li' lj', Decidable (M.pass li lj li' lj')] in
theorem Reach.acts (h : Reach M C g₀ g) {i : ι} {n : Nat} (ha : g.acts C i n = some g') : Reach M C g₀ g' := by
  induction n generalizing g with
  | zero =>
    cases ha
    exact h
  | succ n ih =>
    obtain ⟨g₁, h1, h2⟩ := Option.bind_eq_some_iff.mp ha
    unfold Config.act at h1
    cases hi : g.thread i with
    | ret a =>
      rw [hi] at h1
      cases h1
    | stop e =>
      rw [hi] at h1
      cases h1
    | act l f k =>
      simp only [hi] at h1
      by_cases hC : C l g.shared
      · rw [if_pos hC] at h1
        obtain ⟨s', hf, rfl⟩ := Option.map_eq_some_iff.mp h1
        exact ih (h.step (.act g i l f k s' hi hC hf)) h2
      · rw [if_neg hC] at h1
        cases h1

theorem Reach.move (h : Reach M C g₀ g) {m : Move ι loc call} (hm : g.move M C m = some g') : Reach M C g₀ g' := by
  cases m with
  | acts i n => exact h.acts hm
  | begin i c =>
    unfold Config.move at hm
    cases hi : g.thread i with
    | ret l =>
      simp only [hi] at hm
      by_cases he : M.enabled l c
      · rw [if_pos he] at hm
        cases hm
        exact h.step (.begin g i l c hi he)
      · rw [if_neg he] at hm
        cases hm
    | act l f k =>
      simp only [hi] at hm
      cases hm
    | stop e =>
      simp only [hi] at hm
      cases hm
  | pass i j li' lj' =>
    unfold Config.move at hm
    cases hi : g.thread i with
    | ret li =>
      cases hj : g.thread j with
      | ret lj =>
        simp only [hi, hj] at hm
        by_cases hp : i ≠ j ∧ M.pass li lj li' lj'
        · rw [if_pos hp] at hm
          cases hm
          exact h.step (.pass g i j hp.1 li lj li' lj' hi hj hp.2)
        · rw [if_neg hp] at hm
          cases hm
      | act l f k =>
        simp only [hi, hj] at hm
        cases hm
      | stop e =>
        simp only [hi, hj] at hm
        cases hm
    | act l f k =>
      simp only [hi] at hm
      cases hm
    | stop e =>
      simp only [hi] at hm
      cases hm

/-- What a schedule reaches is reached. -/
theorem Reach.play (h : Reach M C g₀ g) {ms : List (Move ι loc call)} (hm : g.play M C ms = some g') :
    Reach M C g₀ g' := by
  induction ms generalizing g with
  | nil =>
    cases hm
    exact h
  | cons m ms ih =>
    obtain ⟨g₁, h1, h2⟩ := Option.bind_eq_some_iff.mp hm
    exact ih (h.move h1) h2

/-- A schedule shows that a configuration that passes a test is reached. -/
theorem Reach.of_play (ms : List (Move ι loc call)) {P : Config L ε σ ι loc → Prop} [DecidablePred P]
    (h : ((g₀.play M C ms).any fun g => decide (P g)) = true) : ∃ g, Reach M C g₀ g ∧ P g := by
  rw [Option.any_eq_true] at h
  obtain ⟨g, hg, hP⟩ := h
  exact ⟨g, Reach.play .refl hg, of_decide_eq_true hP⟩

end Play

end Steps

/-! ### Triples -/

section Triples
variable {L ε σ ι τ α β : Type} [DecidableEq ι]
variable (inv : σ → (ι → τ) → Prop) (C G : L → σ → Prop) (ok : ε → Prop)

/-- Started by process `i` with token `t`, the program keeps `inv` at each of its
sections that start in a state meeting `C`, these states meet `G`, it stops only for
a reason in `ok`, and it returns with a value and a token in `Q`. -/
def Triple (i : ι) : Prog L ε σ α → τ → (α → τ → Prop) → Prop
  | .ret a, t, Q => Q a t
  | .act l f k, t, Q => ∀ s T s', inv s T → T i = t → C l s → f s = some s' →
      G l s ∧ ∃ t', inv s' (Function.update T i t') ∧ Triple i (k s) t' Q
  | .stop e, _, _ => ok e

variable {inv C G ok} {i : ι}

theorem Triple.ret {a : α} {t : τ} {Q : α → τ → Prop} (h : Q a t) :
    Triple inv C G ok i (.ret a : Prog L ε σ α) t Q := h

theorem Triple.stop {e : ε} {t : τ} {Q : α → τ → Prop} (h : ok e) :
    Triple inv C G ok i (.stop e : Prog L ε σ α) t Q := h

theorem Triple.act {l : L} {f : σ → Option σ} {k : σ → Prog L ε σ α} {t : τ} {Q : α → τ → Prop}
    (h : ∀ s T s', inv s T → T i = t → C l s → f s = some s' →
      G l s ∧ ∃ t', inv s' (Function.update T i t') ∧ Triple inv C G ok i (k s) t' Q) :
    Triple inv C G ok i (.act l f k) t Q := h

theorem Triple.mono {p : Prog L ε σ α} {t : τ} {Q R : α → τ → Prop}
    (h : Triple inv C G ok i p t Q) (hQR : ∀ a t', Q a t' → R a t') : Triple inv C G ok i p t R := by
  induction p generalizing t with
  | ret a => exact hQR a t h
  | act l f k ih =>
    intro s T s' hI ht hC hf
    obtain ⟨hG, t', hI', hk⟩ := h s T s' hI ht hC hf
    exact ⟨hG, t', hI', ih s hk⟩
  | stop e => exact h

/-- The rule for sequencing. -/
theorem Triple.bind {p : Prog L ε σ α} {q : α → Prog L ε σ β} {t : τ} {Q : α → τ → Prop}
    {R : β → τ → Prop} (hp : Triple inv C G ok i p t Q)
    (hq : ∀ a t', Q a t' → Triple inv C G ok i (q a) t' R) : Triple inv C G ok i (p >>= q) t R := by
  induction p generalizing t with
  | ret a => exact hq a t hp
  | act l f k ih =>
    intro s T s' hI ht hC hf
    obtain ⟨hG, t', hI', hk⟩ := hp s T s' hI ht hC hf
    exact ⟨hG, t', hI', ih s hk⟩
  | stop e => exact hp

/-- A program that stays within a relation the invariant is closed under keeps
its token: the frame rule. -/
theorem Triple.within {R : L → σ → σ → Prop}
    (hR : ∀ l s s' T, R l s s' → inv s T → G l s ∧ inv s' T)
    {p : Prog L ε σ α} (hp : p.Within R ok) {t : τ} :
    Triple inv C G ok i p t fun _ t' => t' = t := by
  induction p with
  | ret a => rfl
  | act l f k ih =>
    intro s T s' hI ht _ hf
    obtain ⟨hG, hI'⟩ := hR l s s' T (hp.1 s s' hf) hI
    refine ⟨hG, t, ?_, ih s (hp.2 s)⟩
    rw [← ht, Function.update_eq_self]
    exact hI'
  | stop e => exact hp

/-- The rule of conjunction: two invariants, each with tokens of its own. -/
theorem Triple.and {κ : Type} {inv' : σ → (ι → κ) → Prop} {G' : L → σ → Prop} {ok' : ε → Prop} {p : Prog L ε σ α} {t : τ} {u : κ}
    {Q : α → τ → Prop} {R : α → κ → Prop} (h : Triple inv C G ok i p t Q) (h' : Triple inv' C G' ok' i p u R) :
    Triple (fun s T => inv s (fun j => (T j).1) ∧ inv' s fun j => (T j).2) C (fun l s => G l s ∧ G' l s) (fun e => ok e ∧ ok' e)
      i p (t, u) fun a x => Q a x.1 ∧ R a x.2 := by
  induction p generalizing t u with
  | ret a => exact ⟨h, h'⟩
  | act l f k ih =>
    intro s T s' hI ht hC hf
    obtain ⟨hG, t', hI₁, hk⟩ := h s _ s' hI.1 (by rw [ht]) hC hf
    obtain ⟨hG', u', hI₂, hk'⟩ := h' s _ s' hI.2 (by rw [ht]) hC hf
    have hfst : (fun j => (Function.update T i (t', u') j).1) = Function.update (fun j => (T j).1) i t' :=
      Function.comp_update Prod.fst T i (t', u')
    have hsnd : (fun j => (Function.update T i (t', u') j).2) = Function.update (fun j => (T j).2) i u' :=
      Function.comp_update Prod.snd T i (t', u')
    refine ⟨⟨hG, hG'⟩, (t', u'), ⟨?_, ?_⟩, ih s hk hk'⟩
    · rw [hfst]
      exact hI₁
    · rw [hsnd]
      exact hI₂
  | stop e => exact ⟨h, h'⟩

end Triples

/-! ### Soundness -/

section Soundness
variable {L ε σ ι τ loc call : Type} [DecidableEq ι]
variable {M : Client L ε σ ι loc call} {C G : L → σ → Prop} {inv : σ → (ι → τ) → Prop}
variable {ok : ε → Prop} (tok : loc → τ → Prop)

/-- A configuration under the invariant: some tokens meet it and every process's
remaining program has a triple from its own. `tok l` are the tokens a process may
have when it is idle with the local value `l`. -/
def Covered (inv : σ → (ι → τ) → Prop) (C G : L → σ → Prop) (ok : ε → Prop) (tok : loc → τ → Prop)
    (g : Config L ε σ ι loc) : Prop :=
  ∃ T, inv g.shared T ∧ ∀ i, Triple inv C G ok i (g.thread i) (T i) tok

variable {tok}

theorem Covered.idle {T : ι → τ} {g : Config L ε σ ι loc}
    (hT : ∀ i, Triple inv C G ok i (g.thread i) (T i) tok) {i : ι} {l : loc} (hi : g.thread i = .ret l) :
    tok l (T i) := by
  have h := hT i
  rw [hi] at h
  exact h

theorem Covered.step
    (hcall : ∀ i l c t, M.enabled l c → tok l t → Triple inv C G ok i (M.body i l c) t tok)
    (hpass : ∀ s T i j li lj li' lj', i ≠ j → inv s T → tok li (T i) → tok lj (T j) →
      M.pass li lj li' lj' → ∃ ti tj, tok li' ti ∧ tok lj' tj ∧
        inv s (Function.update (Function.update T i ti) j tj))
    {g g' : Config L ε σ ι loc} (h : Covered inv C G ok tok g) (hs : Step M C g g') :
    Covered inv C G ok tok g' := by
  obtain ⟨T, hI, hT⟩ := h
  cases hs with
  | begin i l c hi he =>
    refine ⟨T, hI, fun j => ?_⟩
    by_cases hj : j = i
    · subst hj
      simp only [Function.update_self]
      exact hcall j l c (T j) he (Covered.idle hT hi)
    · simp only [Function.update_of_ne hj]
      exact hT j
  | pass i j hij li lj li' lj' hi hj hp =>
    obtain ⟨ti, tj, hti, htj, hI'⟩ :=
      hpass _ T i j li lj li' lj' hij hI (Covered.idle hT hi) (Covered.idle hT hj) hp
    refine ⟨_, hI', fun k => ?_⟩
    by_cases hkj : k = j
    · subst hkj
      simp only [Function.update_self]
      exact htj
    · by_cases hki : k = i
      · subst hki
        simp only [Function.update_of_ne hij, Function.update_self]
        exact hti
      · simp only [Function.update_of_ne hkj, Function.update_of_ne hki]
        exact hT k
  | act i l f k s' hi hc hf =>
    have ht := hT i
    rw [hi] at ht
    obtain ⟨_, t', hI', hk⟩ := ht _ T s' hI rfl hc hf
    refine ⟨_, hI', fun j => ?_⟩
    by_cases hj : j = i
    · subst hj
      simp only [Function.update_self]
      exact hk
    · simp only [Function.update_of_ne hj]
      exact hT j

/-- **Soundness.** If every call has its triple and handing over keeps the
invariant, every configuration reached by steps that meet `C` is covered. -/
theorem Reach.sound
    (hcall : ∀ i l c t, M.enabled l c → tok l t → Triple inv C G ok i (M.body i l c) t tok)
    (hpass : ∀ s T i j li lj li' lj', i ≠ j → inv s T → tok li (T i) → tok lj (T j) →
      M.pass li lj li' lj' → ∃ ti tj, tok li' ti ∧ tok lj' tj ∧
        inv s (Function.update (Function.update T i ti) j tj))
    {g₀ g : Config L ε σ ι loc} (h₀ : Covered inv C G ok tok g₀) (h : Reach M C g₀ g) :
    Covered inv C G ok tok g := by
  induction h with
  | refl => exact h₀
  | step _ hs ih => exact ih.step hcall hpass hs

/-- A section that starts in a state meeting `C` starts in one meeting `G`. -/
theorem Covered.next {g : Config L ε σ ι loc} (h : Covered inv C G ok tok g) {i : ι} {l : L}
    {f : σ → Option σ} {k : σ → Prog L ε σ loc} (hi : g.thread i = .act l f k) (hC : C l g.shared)
    {s' : σ} (hf : f g.shared = some s') : G l g.shared := by
  obtain ⟨T, hI, hT⟩ := h
  have ht := hT i
  rw [hi] at ht
  exact (ht _ T s' hI rfl hC hf).1

end Soundness
end Resumption
