import Mathlib.Logic.Function.Basic

/-! Programs as sequences of atomic sections.

A program over a shared state either returns, stops, or performs one section: an
effect on the state that nothing can interrupt, after which it goes on with what
it saw. `next` receives the state the section started from, so a section reads
and writes at once; an effect that is `none` has to wait. The same program is
run alone (`run`) or, in `Resumption.Interleave`, among others.

`label` says which section of which function this is. No effect depends on it:
labels are what conditions on the steps of a run speak about (`Steps`). -/
namespace Resumption

inductive Prog (L ε σ α : Type) : Type
  | ret (value : α)
  | act (label : L) (effect : σ → Option σ) (next : σ → Prog L ε σ α)
  | stop (why : ε)

namespace Prog
variable {L ε σ α β γ : Type}

def bind (p : Prog L ε σ α) (q : α → Prog L ε σ β) : Prog L ε σ β :=
  match p with
  | .ret a => q a
  | .act l f k => .act l f fun s => (k s).bind q
  | .stop e => .stop e

instance : Monad (Prog L ε σ) where
  pure := .ret
  bind := bind

@[simp] theorem pure_eq (a : α) : (pure a : Prog L ε σ α) = .ret a := rfl
@[simp] theorem ret_bind (a : α) (q : α → Prog L ε σ β) : (Prog.ret a : Prog L ε σ α) >>= q = q a := rfl
@[simp] theorem stop_bind (e : ε) (q : α → Prog L ε σ β) :
    (Prog.stop e : Prog L ε σ α) >>= q = .stop e := rfl
@[simp] theorem act_bind (l : L) (f : σ → Option σ) (k : σ → Prog L ε σ α) (q : α → Prog L ε σ β) :
    Prog.act l f k >>= q = .act l f fun s => k s >>= q := rfl

@[simp] theorem bind_ret (p : Prog L ε σ α) : p >>= Prog.ret = p := by
  induction p with
  | ret a => rfl
  | act l f k ih => simp only [act_bind, ih]
  | stop e => rfl

theorem bind_assoc (p : Prog L ε σ α) (q : α → Prog L ε σ β) (r : β → Prog L ε σ γ) :
    p >>= q >>= r = p >>= fun a => q a >>= r := by
  induction p with
  | ret a => rfl
  | act l f k ih => simp only [act_bind, ih]
  | stop e => rfl

instance : LawfulMonad (Prog L ε σ) :=
  LawfulMonad.mk' _ (fun p => bind_ret p) (fun _ _ => rfl) bind_assoc

/-- A section that only looks. -/
def look (l : L) : Prog L ε σ σ := .act l some .ret

/-- A section that changes the state and returns nothing. -/
def change (l : L) (f : σ → σ) : Prog L ε σ Unit := .act l (fun s => some (f s)) fun _ => .ret ()

/-- It has nothing left to do. -/
def returned : Prog L ε σ α → Bool
  | .ret _ => true
  | _ => false

theorem returned_unit {p : Prog L ε σ Unit} (h : p.returned = true) : p = .ret () := by
  cases p with
  | ret a => rfl
  | act l f k => cases h
  | stop e => cases h

/-! ### Running alone -/

end Prog

/-- How a program that runs alone ends. -/
inductive Outcome (ε σ α : Type) : Type
  | done (value : α) (state : σ)
  | stopped (why : ε)
  | blocked

namespace Outcome
variable {ε σ α β : Type}

def andThen (o : Outcome ε σ α) (q : α → σ → Outcome ε σ β) : Outcome ε σ β :=
  match o with
  | .done a s => q a s
  | .stopped e => .stopped e
  | .blocked => .blocked

/-- The value returned, if it returned. -/
def value? : Outcome ε σ α → Option α
  | .done a _ => some a
  | _ => none

/-- The state in the end, if it returned. -/
def state? : Outcome ε σ α → Option σ
  | .done _ s => some s
  | _ => none

theorem value?_eq_some {o : Outcome ε σ α} {a : α} : o.value? = some a ↔ ∃ s, o = .done a s := by
  constructor
  · intro h
    cases o with
    | done a' s =>
      cases h
      exact ⟨s, rfl⟩
    | stopped e => cases h
    | blocked => cases h
  · intro h
    obtain ⟨s, rfl⟩ := h
    rfl

theorem state?_eq_some {o : Outcome ε σ α} {s : σ} : o.state? = some s ↔ ∃ a, o = .done a s := by
  constructor
  · intro h
    cases o with
    | done a s' =>
      cases h
      exact ⟨a, rfl⟩
    | stopped e => cases h
    | blocked => cases h
  · intro h
    obtain ⟨a, rfl⟩ := h
    rfl

@[simp] theorem done_andThen (a : α) (s : σ) (q : α → σ → Outcome ε σ β) :
    (Outcome.done a s : Outcome ε σ α).andThen q = q a s := rfl
@[simp] theorem stopped_andThen (e : ε) (q : α → σ → Outcome ε σ β) :
    (Outcome.stopped e : Outcome ε σ α).andThen q = .stopped e := rfl
@[simp] theorem blocked_andThen (q : α → σ → Outcome ε σ β) :
    (Outcome.blocked : Outcome ε σ α).andThen q = .blocked := rfl

end Outcome

namespace Prog
variable {L ε σ α β γ : Type}

def run (p : Prog L ε σ α) (s : σ) : Outcome ε σ α :=
  match p with
  | .ret a => .done a s
  | .act _ f k => match f s with
    | some s' => (k s).run s'
    | none => .blocked
  | .stop e => .stopped e

@[simp] theorem run_ret (a : α) (s : σ) : (Prog.ret a : Prog L ε σ α).run s = .done a s := rfl
@[simp] theorem run_stop (e : ε) (s : σ) : (Prog.stop e : Prog L ε σ α).run s = .stopped e := rfl
theorem run_act (l : L) (f : σ → Option σ) (k : σ → Prog L ε σ α) (s : σ) :
    (Prog.act l f k).run s = match f s with | some s' => (k s).run s' | none => .blocked := rfl
@[simp] theorem run_act_some (l : L) (f : σ → σ) (k : σ → Prog L ε σ α) (s : σ) :
    (Prog.act l (fun s => some (f s)) k).run s = (k s).run (f s) := rfl
@[simp] theorem run_look (l : L) (s : σ) : (look l : Prog L ε σ σ).run s = .done s s := rfl
@[simp] theorem run_change (l : L) (f : σ → σ) (s : σ) :
    (change l f : Prog L ε σ Unit).run s = .done () (f s) := rfl

theorem run_bind (p : Prog L ε σ α) (q : α → Prog L ε σ β) (s : σ) :
    (p >>= q).run s = (p.run s).andThen fun a s' => (q a).run s' := by
  induction p generalizing s with
  | ret a => rfl
  | act l f k ih =>
    simp only [act_bind, run_act]
    cases f s with
    | none => rfl
    | some s' => exact ih s s'
  | stop e => rfl

theorem run_bind_done {p : Prog L ε σ α} {s s' : σ} {a : α} (h : p.run s = .done a s')
    (q : α → Prog L ε σ β) : (p >>= q).run s = (q a).run s' := by
  rw [run_bind, h]
  rfl

theorem run_bind_inv {p : Prog L ε σ α} {q : α → Prog L ε σ β} {s s'' : σ} {b : β} (h : (p >>= q).run s = .done b s'') :
    ∃ a s', p.run s = .done a s' ∧ (q a).run s' = .done b s'' := by
  rw [run_bind] at h
  cases hp : p.run s with
  | done a s' =>
    rw [hp] at h
    exact ⟨a, s', rfl, h⟩
  | stopped e =>
    rw [hp] at h
    cases h
  | blocked =>
    rw [hp] at h
    cases h

/-! ### Conditions on the steps of a run -/

/-- Every section performed when `p` runs alone from `s` starts in a state that
meets `P`. -/
def Steps (P : L → σ → Prop) (p : Prog L ε σ α) (s : σ) : Prop :=
  match p with
  | .ret _ => True
  | .act l f k => P l s ∧ ∀ s', f s = some s' → (k s).Steps P s'
  | .stop _ => True

variable {P : L → σ → Prop}

@[simp] theorem steps_ret (a : α) (s : σ) : (Prog.ret a : Prog L ε σ α).Steps P s ↔ True := Iff.rfl
@[simp] theorem steps_stop (e : ε) (s : σ) : (Prog.stop e : Prog L ε σ α).Steps P s ↔ True := Iff.rfl
theorem steps_act (l : L) (f : σ → Option σ) (k : σ → Prog L ε σ α) (s : σ) :
    (Prog.act l f k).Steps P s ↔ P l s ∧ ∀ s', f s = some s' → (k s).Steps P s' := Iff.rfl

theorem steps_bind (p : Prog L ε σ α) (q : α → Prog L ε σ β) (s : σ) :
    (p >>= q).Steps P s ↔
      p.Steps P s ∧ ∀ a s', p.run s = .done a s' → (q a).Steps P s' := by
  induction p generalizing s with
  | ret a =>
    simp only [ret_bind, steps_ret, true_and, run_ret, Outcome.done.injEq]
    exact ⟨fun h a' s' he => by obtain ⟨rfl, rfl⟩ := he; exact h, fun h => h a s ⟨rfl, rfl⟩⟩
  | act l f k ih =>
    simp only [act_bind, steps_act, run_act, ih]
    cases hf : f s with
    | none => simp
    | some s₁ => simp [and_assoc]
  | stop e => simp

theorem steps_bind_done {p : Prog L ε σ α} {q : α → Prog L ε σ β} {s s' : σ} {a : α}
    (h : (p >>= q).Steps P s) (hp : p.run s = .done a s') : (q a).Steps P s' :=
  ((steps_bind p q s).mp h).2 a s' hp

theorem steps_bind_left {p : Prog L ε σ α} {q : α → Prog L ε σ β} {s : σ}
    (h : (p >>= q).Steps P s) : p.Steps P s :=
  ((steps_bind p q s).mp h).1

theorem Steps.mono {P Q : L → σ → Prop} (hPQ : ∀ l s, P l s → Q l s) {p : Prog L ε σ α} {s : σ}
    (h : p.Steps P s) : p.Steps Q s := by
  induction p generalizing s with
  | ret a => trivial
  | act l f k ih => exact ⟨hPQ l s h.1, fun s' hf => ih s (h.2 s' hf)⟩
  | stop e => trivial

theorem steps_always (hP : ∀ l s, P l s) (p : Prog L ε σ α) (s : σ) : p.Steps P s := by
  induction p generalizing s with
  | ret a => trivial
  | act l f k ih => exact ⟨hP l s, fun s' _ => ih s s'⟩
  | stop e => trivial

instance decidableSteps [∀ l s, Decidable (P l s)] :
    ∀ (p : Prog L ε σ α) (s : σ), Decidable (p.Steps P s)
  | .ret _, _ => isTrue trivial
  | .act l f k, s =>
    match hf : f s with
    | none => decidable_of_iff (P l s) (by simp [steps_act, hf])
    | some s' =>
      haveI := decidableSteps (k s) s'
      decidable_of_iff (P l s ∧ (k s).Steps P s') (by simp [steps_act, hf])
  | .stop _, _ => isTrue trivial

/-! ### What a program leaves alone -/

/-- Every section of `p`, from whatever state, relates its label and the states before
and after it by `R`, and `p` stops only for a reason in `ok`. -/
def Within (R : L → σ → σ → Prop) (ok : ε → Prop) : Prog L ε σ α → Prop
  | .ret _ => True
  | .act l f k => (∀ s s', f s = some s' → R l s s') ∧ ∀ s, (k s).Within R ok
  | .stop e => ok e

variable {R : L → σ → σ → Prop} {ok : ε → Prop}

@[simp] theorem within_ret (a : α) : (Prog.ret a : Prog L ε σ α).Within R ok := trivial

theorem Within.bind {p : Prog L ε σ α} {q : α → Prog L ε σ β} (hp : p.Within R ok)
    (hq : ∀ a, (q a).Within R ok) : (p >>= q).Within R ok := by
  induction p with
  | ret a => exact hq a
  | act l f k ih => exact ⟨hp.1, fun s => ih s (hp.2 s)⟩
  | stop e => exact hp

theorem Within.ite {c : Prop} [Decidable c] {p q : Prog L ε σ α} (hp : c → p.Within R ok) (hq : ¬ c → q.Within R ok) :
    (if c then p else q).Within R ok := by
  by_cases h : c
  · rw [if_pos h]
    exact hp h
  · rw [if_neg h]
    exact hq h

theorem Within.mono {R' : L → σ → σ → Prop} {p : Prog L ε σ α} (hp : p.Within R ok)
    (hR : ∀ l s s', R l s s' → R' l s s') : p.Within R' ok := by
  induction p with
  | ret a => trivial
  | act l f k ih => exact ⟨fun s s' hf => hR l s s' (hp.1 s s' hf), fun s => ih s (hp.2 s)⟩
  | stop e => exact hp

theorem Within.run_stopped {p : Prog L ε σ α} (hp : p.Within R ok) {s : σ} {e : ε}
    (h : p.run s = .stopped e) : ok e := by
  induction p generalizing s with
  | ret a => cases h
  | act l f k ih =>
    rw [run_act] at h
    cases hf : f s with
    | none =>
      rw [hf] at h
      cases h
    | some s' =>
      rw [hf] at h
      exact ih s (hp.2 s) h
  | stop e' =>
    cases h
    exact hp

theorem Within.look (l : L) (k : σ → Prog L ε σ α) (hR : ∀ s, R l s s) (hk : ∀ s, (k s).Within R ok) :
    (Prog.act l some k : Prog L ε σ α).Within R ok :=
  ⟨fun s s' h => by cases h; exact hR s, hk⟩

theorem Within.change (l : L) (f : σ → σ) (hR : ∀ s, R l s (f s)) :
    (Prog.change l f : Prog L ε σ Unit).Within R ok :=
  ⟨fun s s' h => by cases h; exact hR s, fun _ => trivial⟩

end Prog
end Resumption
