import Farron.Resumption.Program

/-! Programs that run alone: what every run of one ends in, and through which states.

`Ends G E p s Q` says of the program `p`, run alone from `s`, that it is never blocked,
that each of its sections starts in a state that meets `G`, and that it returns as `Q` says
or stops for a reason in `E`. One rule for each construct puts such facts together; `run` and
`steps` read them out again. A program over one part of a state is used on the whole of it
through `zoom`, and `relabel` renames its sections. -/
namespace Resumption
namespace Prog
variable {L L' ε σ τ α β : Type}

def Ends (G : L → σ → Prop) (E : ε → Prop) : Prog L ε σ α → σ → (α → σ → Prop) → Prop
  | .ret a, s, Q => Q a s
  | .act l f k, s, Q => G l s ∧ ∃ s', f s = some s' ∧ (k s).Ends G E s' Q
  | .stop e, _, _ => E e

variable {G : L → σ → Prop} {E : ε → Prop} {Q R : α → σ → Prop} {s s' : σ}

@[simp] theorem ends_ret (a : α) : (Prog.ret a : Prog L ε σ α).Ends G E s Q ↔ Q a s := Iff.rfl
@[simp] theorem ends_stop (e : ε) : (Prog.stop e : Prog L ε σ α).Ends G E s Q ↔ E e := Iff.rfl

/-- A section that only looks, and what follows it. -/
theorem Ends.look {l : L} {k : σ → Prog L ε σ α} (hG : G l s) (hk : (k s).Ends G E s Q) :
    (Prog.look l >>= k).Ends G E s Q := ⟨hG, s, rfl, hk⟩

/-- A section that changes the state, and what follows it. -/
theorem Ends.change {l : L} {f : σ → σ} {k : Unit → Prog L ε σ α} (hG : G l s)
    (hk : (k ()).Ends G E (f s) Q) : (Prog.change l f >>= k).Ends G E s Q := ⟨hG, f s, rfl, hk⟩

theorem Ends.change_last {l : L} {f : σ → σ} {Q : Unit → σ → Prop} (hG : G l s) (hQ : Q () (f s)) :
    (Prog.change l f : Prog L ε σ Unit).Ends G E s Q := ⟨hG, f s, rfl, hQ⟩

theorem Ends.mono {E' : ε → Prop} {p : Prog L ε σ α} (h : p.Ends G E s R) (hQ : ∀ a s', R a s' → Q a s')
    (hE : ∀ e, E e → E' e) : p.Ends G E' s Q := by
  induction p generalizing s with
  | ret a => exact hQ a s h
  | act l f k ih =>
    obtain ⟨hG, s', hf, hk⟩ := h
    exact ⟨hG, s', hf, ih s hk⟩
  | stop e => exact hE e h

theorem Ends.imp {p : Prog L ε σ α} (h : p.Ends G E s R) (hQ : ∀ a s', R a s' → Q a s') : p.Ends G E s Q :=
  h.mono hQ fun _ he => he

theorem Ends.bind {p : Prog L ε σ α} {q : α → Prog L ε σ β} {Q : β → σ → Prop} (hp : p.Ends G E s R)
    (hq : ∀ a s', R a s' → (q a).Ends G E s' Q) : (p >>= q).Ends G E s Q := by
  induction p generalizing s with
  | ret a => exact hq a s hp
  | act l f k ih =>
    obtain ⟨hG, s', hf, hk⟩ := hp
    exact ⟨hG, s', hf, ih s hk⟩
  | stop e => exact hp

/-- Two results about the same program; it stops only for the reasons of the first. -/
theorem Ends.and {G' : L → σ → Prop} {E' : ε → Prop} {p : Prog L ε σ α} (h : p.Ends G E s Q) (h' : p.Ends G' E' s R) :
    p.Ends G E s fun a s' => Q a s' ∧ R a s' := by
  induction p generalizing s with
  | ret a => exact ⟨h, h'⟩
  | act l f k ih =>
    obtain ⟨hG, s', hf, hk⟩ := h
    obtain ⟨-, s'', hf', hk'⟩ := h'
    rw [hf] at hf'
    cases hf'
    exact ⟨hG, s', hf, ih s hk hk'⟩
  | stop e => exact h

/-- What the run of a program comes to. -/
theorem Ends.run {p : Prog L ε σ α} (h : p.Ends G E s Q) :
    (∃ a s', p.run s = .done a s' ∧ Q a s') ∨ ∃ e, p.run s = .stopped e ∧ E e := by
  induction p generalizing s with
  | ret a => exact .inl ⟨a, s, rfl, h⟩
  | act l f k ih =>
    obtain ⟨-, s', hf, hk⟩ := h
    rw [run_act, hf]
    exact ih s hk
  | stop e => exact .inr ⟨e, rfl, h⟩

theorem Ends.of_run {p : Prog L ε σ α} (h : p.Ends G E s Q) {a : α} (hr : p.run s = .done a s') : Q a s' := by
  rcases h.run with ⟨a', s'', hr', hQ⟩ | ⟨e, hr', -⟩
  · rw [hr] at hr'
    cases hr'
    exact hQ
  · rw [hr] at hr'
    cases hr'

theorem Ends.returns {p : Prog L ε σ α} (h : p.Ends G (fun _ => False) s Q) :
    ∃ a s', p.run s = .done a s' ∧ Q a s' := by
  rcases h.run with h | ⟨e, -, he⟩
  · exact h
  · exact he.elim

theorem Ends.stops {p : Prog L ε σ α} (h : p.Ends G E s fun _ _ => False) : ∃ e, p.run s = .stopped e ∧ E e := by
  rcases h.run with ⟨a, s', -, hQ⟩ | h
  · exact hQ.elim
  · exact h

theorem Ends.steps {p : Prog L ε σ α} (h : p.Ends G E s Q) : p.Steps G s := by
  induction p generalizing s with
  | ret a => trivial
  | act l f k ih =>
    obtain ⟨hG, s', hf, hk⟩ := h
    refine ⟨hG, fun s'' hf' => ?_⟩
    rw [hf] at hf'
    cases hf'
    exact ih s hk
  | stop e => trivial

/-- What every section preserves, a run does. -/
theorem Within.run_done {R : σ → σ → Prop} (hrefl : ∀ s, R s s) (htrans : ∀ s₁ s₂ s₃, R s₁ s₂ → R s₂ s₃ → R s₁ s₃)
    {p : Prog L ε σ α} (hp : p.Within (fun _ => R) E) {a : α} (h : p.run s = .done a s') : R s s' := by
  induction p generalizing s with
  | ret b =>
    cases h
    exact hrefl _
  | act l f k ih =>
    rw [run_act] at h
    cases hf : f s with
    | none =>
      rw [hf] at h
      cases h
    | some s₁ =>
      rw [hf] at h
      exact htrans _ _ _ (hp.1 s s₁ hf) (ih s (hp.2 s) h)
  | stop e => cases h

/-- Run alone from a `valid` state, the program ends as it should if and only if the state meets `cond`. -/
def EndsIff (valid cond : σ → Prop) (good : σ → α → σ → Prop) (p : Prog L ε σ α) : Prop :=
  ∀ s a s', valid s → p.run s = .done a s' → (good s a s' ↔ cond s)

/-! ### Other labels, a larger state -/

def relabel (r : L → L') : Prog L ε σ α → Prog L' ε σ α
  | .ret a => .ret a
  | .act l f k => .act (r l) f fun s => (k s).relabel r
  | .stop e => .stop e

theorem Ends.relabel {r : L → L'} {G : L' → σ → Prop} {p : Prog L ε σ α}
    (h : p.Ends (fun l => G (r l)) E s Q) : (p.relabel r).Ends G E s Q := by
  induction p generalizing s with
  | ret a => exact h
  | act l f k ih =>
    obtain ⟨hG, s', hf, hk⟩ := h
    exact ⟨hG, s', hf, ih s hk⟩
  | stop e => exact h

@[simp] theorem run_relabel (r : L → L') (p : Prog L ε σ α) (s : σ) : (p.relabel r).run s = p.run s := by
  induction p generalizing s with
  | ret a => rfl
  | act l f k ih =>
    rw [Prog.relabel, run_act, run_act]
    cases f s with
    | none => rfl
    | some s' => exact ih s s'
  | stop e => rfl

end Prog

/-- An outcome, with the state that it ends in seen as part of a larger one. -/
def Outcome.within {ε σ τ α : Type} (f : σ → τ) : Outcome ε σ α → Outcome ε τ α
  | .done a s => .done a (f s)
  | .stopped e => .stopped e
  | .blocked => .blocked

namespace Prog
variable {L L' ε σ τ α β : Type} {G : L → σ → Prop} {E : ε → Prop} {Q R : α → σ → Prop} {s s' : σ}

/-- The program on a state of which `get` is the part that it reads and `set` changes. -/
def zoom (get : τ → σ) (set : τ → σ → τ) : Prog L ε σ α → Prog L ε τ α
  | .ret a => .ret a
  | .act l f k => .act l (fun t => (f (get t)).map (set t)) fun t => (k (get t)).zoom get set
  | .stop e => .stop e

/-- What it comes to is known from a run on the part alone. -/
theorem run_zoom {get : τ → σ} {set : τ → σ → τ} (hget : ∀ t s, get (set t s) = s) (hself : ∀ t, set t (get t) = t)
    (hset : ∀ t s s', set (set t s) s' = set t s') (p : Prog L ε σ α) (t : τ) :
    (p.zoom get set).run t = (p.run (get t)).within (set t) := by
  suffices h : ∀ s, (p.zoom get set).run (set t s) = (p.run s).within (set t) by
    simpa only [hself] using h (get t)
  intro s
  induction p generalizing s with
  | ret a => rfl
  | act l f k ih =>
    rw [Prog.zoom, run_act, run_act, hget]
    cases f s with
    | none => rfl
    | some s' =>
      rw [Option.map_some, hset]
      exact ih s s'
  | stop e => rfl

/-- It changes nothing but its part of the state. -/
theorem within_zoom {get : τ → σ} {set : τ → σ → τ} {r : L → L'} {R : L' → τ → τ → Prop} {ok : ε → Prop}
    (hR : ∀ l t s, R l t (set t s)) (hok : ∀ e, ok e) (p : Prog L ε σ α) :
    ((p.relabel r).zoom get set).Within R ok := by
  induction p with
  | ret a => trivial
  | act l f k ih =>
    refine ⟨fun t t' h => ?_, fun t => ih _⟩
    obtain ⟨s, -, rfl⟩ := Option.map_eq_some_iff.mp h
    exact hR _ _ _
  | stop e => exact hok e

theorem Ends.zoom {get : τ → σ} {set : τ → σ → τ} (hget : ∀ t s, get (set t s) = s)
    (hset : ∀ t s s', set (set t s) s' = set t s') {G : L → τ → Prop} {p : Prog L ε σ α} (t : τ)
    (h : p.Ends (fun l s => G l (set t s)) E s Q) :
    (p.zoom get set).Ends G E (set t s) fun a t' => ∃ s', t' = set t s' ∧ Q a s' := by
  induction p generalizing s with
  | ret a => exact ⟨s, rfl, h⟩
  | act l f k ih =>
    obtain ⟨hG, s', hf, hk⟩ := h
    refine ⟨hG, set t s', ?_, ?_⟩
    · show (f (get (set t s))).map (set (set t s)) = some (set t s')
      rw [hget, hf, Option.map_some, hset]
    · show ((k (get (set t s))).zoom get set).Ends G E (set t s') _
      rw [hget]
      exact ih s hk
  | stop e => exact h

end Prog
end Resumption
