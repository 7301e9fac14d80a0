import Farron.Resumption.Alone
import Farron.Resumption.Interleave
import Mathlib.Algebra.Order.BigOperators.Group.Finset

/-! Rely-guarantee reasoning over interleavings.

A process's token says what it owns; beside it the process may note facts about the
state that the others' sections keep (`Stable`), because each of them does no more
than `guar` allows. The facts are about a part `view` of the state, so sections
that leave this part alone need no reasoning (`Judge.frame`). -/
namespace Resumption

/-- A sum after one summand has changed. -/
theorem sum_update {κ τ : Type} [Fintype κ] [DecidableEq κ] (T : κ → τ) (k : κ) (t : τ) (f : τ → Nat) :
    (∑ j, f (Function.update T k t j)) + f (T k) = (∑ j, f (T j)) + f t := by
  have hrest : ∑ j ∈ Finset.univ.erase k, f (Function.update T k t j) = ∑ j ∈ Finset.univ.erase k, f (T j) := by
    apply Finset.sum_congr rfl
    intro j hj
    rw [Function.update_of_ne (Finset.ne_of_mem_erase hj)]
  rw [← Finset.add_sum_erase _ _ (Finset.mem_univ k), ← Finset.add_sum_erase _ (fun j => f (T j)) (Finset.mem_univ k),
    hrest, Function.update_self]
  omega

/-- A program on a part of the state that only process `i` changes while it has this token: it comes to what
it comes to alone, through states that `R` allows. -/
theorem Triple.owned {L L' ε σ κ ι τ α : Type} [DecidableEq ι] {inv : σ → (ι → τ) → Prop} {C G : L' → σ → Prop}
    {ok : ε → Prop} {i : ι} {get : σ → κ} {set : σ → κ → σ} {r : L → L'} {own : κ → τ} {R : κ → κ → Prop} {ok' : ε → Prop}
    (hG : ∀ l s, G l s) (hget : ∀ s T x, inv s T → T i = own x → get s = x)
    (hset : ∀ s T x x', R x x' → inv s T → T i = own x → inv (set s x') (Function.update T i (own x')))
    {p : Prog L ε κ α} (hp : p.Within (fun _ => R) ok') {x x' : κ} {a : α} (hrun : p.run x = .done a x') :
    Triple inv C G ok i ((p.relabel r).zoom get set) (own x) fun b t => b = a ∧ t = own x' := by
  induction p generalizing x with
  | ret b =>
    cases hrun
    exact ⟨rfl, rfl⟩
  | act l f k ih =>
    rw [Prog.run_act] at hrun
    cases hf : f x with
    | none =>
      rw [hf] at hrun
      cases hrun
    | some x₁ =>
      rw [hf] at hrun
      intro s T s' hI ht _ hs
      have hx := hget s T x hI ht
      have hs : (f (get s)).map (set s) = some s' := hs
      rw [hx, hf] at hs
      cases hs
      refine ⟨hG _ _, own x₁, hset s T x x₁ (hp.1 x x₁ hf) hI ht, ?_⟩
      show Triple inv C G ok i (((k (get s)).relabel r).zoom get set) (own x₁) _
      rw [hx]
      exact ih x (hp.2 x) hrun
  | stop e => cases hrun

/-- What a proof is about: the part of the state, its invariant, what a process with
a token may do to it in one section, the condition `C` on the sections of a run,
what is shown of them, `G`, and the reasons to stop. -/
structure Rules (L ε σ κ ι τ : Type) where
  view : σ → κ
  inv : κ → (ι → τ) → Prop
  guar : ι → τ → κ → κ → Prop
  C : L → σ → Prop
  G : L → σ → Prop
  ok : ε → Prop

namespace Rules
variable {L ε σ κ ι τ α β : Type} [DecidableEq ι] (R : Rules L ε σ κ ι τ)

/-- What process `i` may note while it has the token `t`. -/
def Stable (i : ι) (t : τ) (P : κ → Prop) : Prop :=
  ∀ j, j ≠ i → ∀ c c' T t', R.inv c T → R.inv c' (Function.update T j t') → T i = t →
    R.guar j (T j) c c' → P c → P c'

/-- The invariant, with a note beside each token. -/
def Noted (s : σ) (T : ι → τ × (κ → Prop)) : Prop :=
  R.inv (R.view s) (fun i => (T i).1) ∧ ∀ i, (T i).2 (R.view s) ∧ R.Stable i (T i).1 (T i).2

/-- Started by process `i` with the token `t` and the note `P`, the program keeps the
invariant and what the others noted, and returns with a token and a note. -/
def Judge (i : ι) (p : Prog L ε σ α) (t : τ) (P : κ → Prop) (Q : α → τ → κ → Prop) : Prop :=
  ∀ P', (∀ c, P' c → P c) → Triple R.Noted R.C R.G R.ok i p (t, P') fun a x => ∀ c, x.2 c → Q a x.1 c

variable {R} {i : ι} {t : τ} {P : κ → Prop}

theorem Stable.and {F : κ → Prop} (hP : R.Stable i t P) (hF : R.Stable i t F) :
    R.Stable i t fun c => P c ∧ F c :=
  fun j hj c c' T t' hI hI' ht hg h => ⟨hP j hj c c' T t' hI hI' ht hg h.1, hF j hj c c' T t' hI hI' ht hg h.2⟩

theorem Stable.const (p : Prop) : R.Stable i t fun _ => p := fun _ _ _ _ _ _ _ _ _ _ h => h

theorem Stable.imp {p : Prop} {F : κ → Prop} (h : p → R.Stable i t F) : R.Stable i t fun c => p → F c :=
  fun j hj c c' T t' hI hI' ht hg hF hp => h hp j hj c c' T t' hI hI' ht hg (hF hp)

/-- A process that is alone may note anything. -/
theorem Stable.alone (h : Subsingleton ι) : R.Stable i t P :=
  fun j hj => absurd (Subsingleton.elim j i) hj

/-! ### Rules -/

theorem Judge.ret {a : α} {Q : α → τ → κ → Prop} (h : ∀ c, P c → Q a t c) :
    R.Judge i (.ret a) t P Q :=
  fun _ hP c hc => h c (hP c hc)

theorem Judge.stop {e : ε} {Q : α → τ → κ → Prop} (h : R.ok e) : R.Judge i (.stop e) t P Q :=
  fun _ _ => h

theorem Judge.mono {p : Prog L ε σ α} {P' : κ → Prop} {Q Q' : α → τ → κ → Prop}
    (h : R.Judge i p t P Q) (hP : ∀ c, P' c → P c) (hQ : ∀ a t' c, Q a t' c → Q' a t' c) :
    R.Judge i p t P' Q' := by
  intro F hF
  apply (h F fun c hc => hP c (hF c hc)).mono
  intro a x hx c hc
  exact hQ a x.1 c (hx c hc)

theorem Judge.pre {p : Prog L ε σ α} {P' : κ → Prop} {Q : α → τ → κ → Prop}
    (h : R.Judge i p t P Q) (hP : ∀ c, P' c → P c) : R.Judge i p t P' Q :=
  h.mono hP fun _ _ _ hq => hq

theorem Judge.post {p : Prog L ε σ α} {Q Q' : α → τ → κ → Prop}
    (h : R.Judge i p t P Q) (hQ : ∀ a t' c, Q a t' c → Q' a t' c) : R.Judge i p t P Q' :=
  h.mono (fun _ hc => hc) hQ

theorem Judge.bind {p : Prog L ε σ α} {q : α → Prog L ε σ β} {Q : α → τ → κ → Prop}
    {Q' : β → τ → κ → Prop} (hp : R.Judge i p t P Q)
    (hq : ∀ a t', R.Judge i (q a) t' (Q a t') Q') : R.Judge i (p >>= q) t P Q' := by
  intro F hF
  apply (hp F hF).bind
  intro a x hx
  exact hq a x.1 x.2 hx

/-- A note may say something that is not about the state. -/
theorem Judge.known {a : Prop} {p : Prog L ε σ α} {Q : α → τ → κ → Prop} (hstop : ∀ e, p = .stop e → R.ok e)
    (h : a → R.Judge i p t P Q) : R.Judge i p t (fun c => a ∧ P c) Q := by
  by_cases ha : a
  · exact (h ha).pre fun _ hc => hc.2
  · intro F hF
    cases p with
    | ret b => exact fun c hc => absurd (hF c hc).1 ha
    | act l f k =>
      intro s T s' hI hT
      have := (hI.2 i).1
      rw [hT] at this
      exact absurd (hF _ this).1 ha
    | stop e => exact hstop e rfl

/-- A note may say which token this is. -/
theorem Judge.token {p : Prog L ε σ α} {t' : τ} {Q : α → τ → κ → Prop} (h : R.Judge i p t P Q) :
    R.Judge i p t' (fun c => t' = t ∧ P c) Q := by
  apply Judge.known
  · intro e he
    subst he
    exact h P fun _ hc => hc
  · intro ht
    subst ht
    exact h

/-- Sequencing after a program that returns with a known token. -/
theorem Judge.seq {p : Prog L ε σ α} {q : α → Prog L ε σ β} {u : α → τ} {F : α → κ → Prop}
    {Q' : β → τ → κ → Prop} (hp : R.Judge i p t P fun a t' c => t' = u a ∧ F a c)
    (hq : ∀ a, R.Judge i (q a) (u a) (F a) Q') : R.Judge i (p >>= q) t P Q' :=
  hp.bind fun a _ => (hq a).token

/-- The tokens after a section. -/
theorem tokens_update (T : ι → τ × (κ → Prop)) (x : τ × (κ → Prop)) :
    (fun j => (Function.update T i x j).1) = Function.update (fun j => (T j).1) i x.1 := by
  funext j
  by_cases hj : j = i
  · subst hj
    simp only [Function.update_self]
  · simp only [Function.update_of_ne hj]

/-- A section: the process does what it may, and takes a new token and note. -/
theorem Judge.act {l : L} {f : σ → Option σ} {k : σ → Prog L ε σ α} {Q : α → τ → κ → Prop}
    (h : ∀ s T s', R.inv (R.view s) T → T i = t → P (R.view s) → R.C l s → f s = some s' →
      R.G l s ∧ ∃ t' P', R.inv (R.view s') (Function.update T i t') ∧
        R.guar i t (R.view s) (R.view s') ∧ P' (R.view s') ∧ R.Stable i t' P' ∧
        R.Judge i (k s) t' P' Q) :
    R.Judge i (.act l f k) t P Q := by
  intro F hF s T s' hI hT hC hf
  have hi : (T i).1 = t := by rw [hT]
  have hnote : F (R.view s) := by
    have := (hI.2 i).1
    rw [hT] at this
    exact this
  obtain ⟨hG, t', P', hI', hguar, hP', hst', hk⟩ := h s _ s' hI.1 hi (hF _ hnote) hC hf
  refine ⟨hG, (t', P'), ⟨?_, fun j => ?_⟩, hk P' fun _ hc => hc⟩
  · rw [tokens_update]
    exact hI'
  · by_cases hj : j = i
    · subst hj
      simp only [Function.update_self]
      exact ⟨hP', hst'⟩
    · simp only [Function.update_of_ne hj]
      have hkeep := (hI.2 j).2 i (Ne.symm hj) (R.view s) (R.view s') (fun j => (T j).1) t' hI.1 hI' rfl
      rw [← hi] at hguar
      exact ⟨hkeep hguar (hI.2 j).1, (hI.2 j).2⟩

/-- A section that only looks: the process may note a stable fact it has seen. -/
theorem Judge.look {l : L} {k : σ → Prog L ε σ α} {Q : α → τ → κ → Prop}
    (h : ∀ s T, R.inv (R.view s) T → T i = t → P (R.view s) → R.C l s →
      R.G l s ∧ ∃ F, F (R.view s) ∧ R.Stable i t F ∧ R.Judge i (k s) t (fun c => P c ∧ F c) Q) :
    R.Judge i (.act l some k) t P Q := by
  intro P' hP' s T s' hI hT hC hf
  cases hf
  have hi : (T i).1 = t := by rw [hT]
  have hnote : P' (R.view s) ∧ R.Stable i t P' := by
    have := hI.2 i
    rw [hT] at this
    exact this
  obtain ⟨hG, F, hF, hstF, hk⟩ := h s _ hI.1 hi (hP' _ hnote.1) hC
  refine ⟨hG, (t, fun c => P' c ∧ F c), ⟨?_, fun j => ?_⟩, hk _ fun c hc => ⟨hP' c hc.1, hc.2⟩⟩
  · rw [tokens_update, ← hi]
    have := Function.update_eq_self i fun j => (T j).1
    rw [this]
    exact hI.1
  · by_cases hj : j = i
    · subst hj
      simp only [Function.update_self]
      exact ⟨⟨hnote.1, hF⟩, hnote.2.and hstF⟩
    · simp only [Function.update_of_ne hj]
      exact hI.2 j

/-- A section that only looks, at something that may change at once. -/
theorem Judge.glance {l : L} {k : σ → Prog L ε σ α} {Q : α → τ → κ → Prop}
    (h : ∀ s T, R.inv (R.view s) T → T i = t → P (R.view s) → R.C l s →
      R.G l s ∧ R.Judge i (k s) t P Q) :
    R.Judge i (.act l some k) t P Q := by
  apply Judge.look
  intro s T hI hT hP hC
  obtain ⟨hG, hk⟩ := h s T hI hT hP hC
  exact ⟨hG, fun _ => True, trivial, .const _, hk.pre fun c hc => hc.1⟩

/-- The frame rule: a program that leaves the view alone keeps token and note. -/
theorem Judge.frame {p : Prog L ε σ α}
    (hp : p.Within (fun l s s' => R.view s' = R.view s ∧ R.G l s) R.ok) :
    R.Judge i p t P fun _ t' c => t' = t ∧ P c := by
  intro P' hP'
  have hR : ∀ l s s' T, (R.view s' = R.view s ∧ R.G l s) → R.Noted s T → R.G l s ∧ R.Noted s' T := by
    intro l s s' T hs hI
    refine ⟨hs.2, ?_⟩
    unfold Noted
    rw [hs.1]
    exact hI
  apply (Triple.within hR hp).mono
  intro a x hx
  subst hx
  exact fun c hc => ⟨rfl, hP' c hc⟩

/-! ### Soundness -/

variable {loc call : Type} {M : Client L ε σ ι loc call} {tok : loc → τ}

/-- Each call keeps the invariant, and so does handing over. -/
structure Keeps (R : Rules L ε σ κ ι τ) (M : Client L ε σ ι loc call) (tok : loc → τ) : Prop where
  call : ∀ i l c, M.enabled l c →
    R.Judge i (M.body i l c) (tok l) (fun _ => True) fun l' t' _ => t' = tok l'
  pass : ∀ c T i j li lj li' lj', i ≠ j → R.inv c T → T i = tok li → T j = tok lj →
    M.pass li lj li' lj' → R.inv c (Function.update (Function.update T i (tok li')) j (tok lj'))

/-- The tokens, with their notes, of an idle process. -/
def Idle (tok : loc → τ) (l : loc) (x : τ × (κ → Prop)) : Prop := ∀ c, x.2 c → x.1 = tok l

theorem Judge.triple {p : Prog L ε σ loc} {x : τ × (κ → Prop)} {l : loc} (hx : Idle tok l x)
    (hp : R.Judge i p (tok l) (fun _ => True) fun l' t' _ => t' = tok l') :
    Triple R.Noted R.C R.G R.ok i p x (Idle tok) := by
  by_cases hc : ∃ c, x.2 c
  · obtain ⟨c, hc⟩ := hc
    have := hp x.2 fun _ _ => trivial
    rw [← hx c hc] at this
    exact this
  · -- a note that cannot hold
    cases p with
    | ret a => exact fun c h => absurd ⟨c, h⟩ hc
    | act l f k =>
      intro s T s' hI hT
      have := (hI.2 i).1
      rw [hT] at this
      exact absurd ⟨_, this⟩ hc
    | stop e => exact hp (fun _ => True) fun _ _ => trivial

theorem Keeps.covered (h : R.Keeps M tok) {s : σ} {l₀ : ι → loc}
    (h₀ : R.inv (R.view s) fun i => tok (l₀ i)) {g : Config L ε σ ι loc}
    (hg : Reach M R.C ⟨s, fun i => .ret (l₀ i)⟩ g) :
    Covered R.Noted R.C R.G R.ok (Idle tok) g := by
  refine Reach.sound (fun i l c x hc hx => (h.call i l c hc).triple hx) ?_ ?_ hg
  · intro s T i j li lj li' lj' hij hI hi hj hp
    refine ⟨(tok li', fun _ => True), (tok lj', fun _ => True), fun _ _ => rfl, fun _ _ => rfl, ?_, fun k => ?_⟩
    · rw [tokens_update, tokens_update]
      exact h.pass _ _ i j li lj li' lj' hij hI.1 (hi _ (hI.2 i).1) (hj _ (hI.2 j).1) hp
    · by_cases hkj : k = j
      · subst hkj
        simp only [Function.update_self]
        exact ⟨trivial, .const _⟩
      · by_cases hki : k = i
        · subst hki
          simp only [Function.update_of_ne hij, Function.update_self]
          exact ⟨trivial, .const _⟩
        · simp only [Function.update_of_ne hkj, Function.update_of_ne hki]
          exact hI.2 k
  · exact ⟨fun i => (tok (l₀ i), fun _ => True), ⟨h₀, fun i => ⟨trivial, .const _⟩⟩,
      fun i => Triple.ret fun _ _ => rfl⟩

/-- **Soundness.** In every configuration reached by steps that meet `C` the invariant
holds of some tokens, an idle process's being the one of its local value. -/
theorem Keeps.sound (h : R.Keeps M tok) {s : σ} {l₀ : ι → loc}
    (h₀ : R.inv (R.view s) fun i => tok (l₀ i)) {g : Config L ε σ ι loc}
    (hg : Reach M R.C ⟨s, fun i => .ret (l₀ i)⟩ g) :
    ∃ T, R.inv (R.view g.shared) T ∧ ∀ i l, g.thread i = .ret l → T i = tok l := by
  obtain ⟨T, hI, hT⟩ := h.covered h₀ hg
  exact ⟨_, hI.1, fun i l hi => Covered.idle hT hi _ (hI.2 i).1⟩

/-- And each section starts in a state that meets `G`. -/
theorem Keeps.next (h : R.Keeps M tok) {s : σ} {l₀ : ι → loc}
    (h₀ : R.inv (R.view s) fun i => tok (l₀ i)) {g : Config L ε σ ι loc}
    (hg : Reach M R.C ⟨s, fun i => .ret (l₀ i)⟩ g) {i : ι} {l : L} {f : σ → Option σ}
    {k : σ → Prog L ε σ loc} (hi : g.thread i = .act l f k) (hC : R.C l g.shared)
    {s' : σ} (hf : f g.shared = some s') : R.G l g.shared :=
  (h.covered h₀ hg).next hi hC hf

end Rules
end Resumption
