import Mathlib.Tactic.Common

/-! Parsers that walk down a text.

A parser moves a position. A call returns, or stops with an error, or has not ended within its fuel. What a parser
does is said in terms of a view of its positions, such as the tokens that are left, by a relation `R` between the
positions and the views: it takes one view to another (`Takes`), or it ends, with a result and a view of some kind
unless it stops (`Ends`). -/
namespace Descent

/-- A parser with positions `σ` and errors `ε`. -/
def Parser (σ ε α : Type) : Type := σ → Option (Except ε (α × σ))

variable {σ ε α β : Type}

namespace Parser

def ret (a : α) : Parser σ ε α := fun s => some (.ok (a, s))

/-- It stops with an error. -/
def stop (e : ε) : Parser σ ε α := fun _ => some (.error e)

/-- The fuel is used up. -/
def unfinished : Parser σ ε α := fun _ => none

def andThen (x : Parser σ ε α) (f : α → Parser σ ε β) : Parser σ ε β := fun s =>
  match x s with
  | none => none
  | some (.error e) => some (.error e)
  | some (.ok (a, s')) => f a s'

instance : Monad (Parser σ ε) where
  pure := ret
  bind := andThen

theorem andThen_ok {x : Parser σ ε α} {f : α → Parser σ ε β} {s s' : σ} {a : α} (h : x s = some (.ok (a, s'))) :
    (x >>= f) s = f a s' := by
  show andThen x f s = _
  simp only [andThen, h]

theorem andThen_error {x : Parser σ ε α} {f : α → Parser σ ε β} {s : σ} {e : ε} (h : x s = some (.error e)) :
    (x >>= f) s = some (.error e) := by
  show andThen x f s = _
  simp only [andThen, h]

end Parser

section Views
variable {τ : Type} (R : σ → τ → Prop)

/-- It returns `a`, and takes the view `t` to `t'`. -/
def Takes (x : Parser σ ε α) (t : τ) (a : α) (t' : τ) : Prop :=
  ∀ s, R s t → ∃ s', x s = some (.ok (a, s')) ∧ R s' t'

/-- It ends: unless it stops with an error, with a result and a view that `Q` holds of. -/
def Ends (x : Parser σ ε α) (t : τ) (Q : α → τ → Prop) : Prop :=
  ∀ s, R s t → (∃ e, x s = some (.error e)) ∨ ∃ a s' t', x s = some (.ok (a, s')) ∧ R s' t' ∧ Q a t'

variable {R} {x : Parser σ ε α} {f : α → Parser σ ε β} {t t' t'' : τ} {a : α} {b : β} {Q Q' : α → τ → Prop}

theorem Takes.ret : Takes R (pure a : Parser σ ε α) t a t := fun s hs => ⟨s, rfl, hs⟩

theorem Takes.bind (hx : Takes R x t a t') (hf : Takes R (f a) t' b t'') : Takes R (x >>= f) t b t'' := by
  intro s hs
  obtain ⟨s', hok, hs'⟩ := hx s hs
  rw [Parser.andThen_ok hok]
  exact hf s' hs'

theorem Ends.ret (h : Q a t) : Ends R (pure a : Parser σ ε α) t Q := fun s hs => .inr ⟨a, s, t, rfl, hs, h⟩

theorem Ends.stop (e : ε) : Ends R (Parser.stop e : Parser σ ε α) t Q := fun _ _ => .inl ⟨e, rfl⟩

theorem Ends.mono (h : Ends R x t Q) (hQ : ∀ a t', Q a t' → Q' a t') : Ends R x t Q' := by
  intro s hs
  rcases h s hs with he | ⟨a, s', t', hok, hs', ha⟩
  · exact .inl he
  · exact .inr ⟨a, s', t', hok, hs', hQ a t' ha⟩

theorem Ends.bind {P : β → τ → Prop} (hx : Ends R x t Q) (hf : ∀ a t', Q a t' → Ends R (f a) t' P) :
    Ends R (x >>= f) t P := by
  intro s hs
  rcases hx s hs with ⟨e, he⟩ | ⟨a, s', t', hok, hs', ha⟩
  · exact .inl ⟨e, Parser.andThen_error he⟩
  · rw [Parser.andThen_ok hok]
    exact hf a t' ha s' hs'

theorem Takes.ends (h : Takes R x t a t') (hQ : Q a t') : Ends R x t Q := by
  intro s hs
  obtain ⟨s', hok, hs'⟩ := h s hs
  exact .inr ⟨a, s', t', hok, hs', hQ⟩

/-- What is returned after a step that is known. -/
theorem Takes.bind_ends {P : β → τ → Prop} (hx : Takes R x t a t') (hf : Ends R (f a) t' P) : Ends R (x >>= f) t P := by
  intro s hs
  obtain ⟨s', hok, hs'⟩ := hx s hs
  rw [Parser.andThen_ok hok]
  exact hf s' hs'

end Views

end Descent
