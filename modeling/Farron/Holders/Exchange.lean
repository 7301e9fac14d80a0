import Mathlib.Logic.Function.Basic

/-! Things that have one holder each.

A holder has one thing or nothing; what is held is there, and what is there is held by just one
(`Each`). A holder may exchange what it has for something that was not there
(`exchange`), and may hand it to a holder that has nothing (`hand`). -/
namespace Holders
variable {η α : Type} {holds : η → Option α} {there there' : α → Prop}

structure Each (holds : η → Option α) (there : α → Prop) : Prop where
  present : ∀ {i a}, holds i = some a → there a
  one : ∀ {i j a}, holds i = some a → holds j = some a → i = j
  held : ∀ {a}, there a → ∃ i, holds i = some a

namespace Each

/-- What is there may be said in other words. -/
theorem congr (h : Each holds there) (hiff : ∀ a, there' a ↔ there a) : Each holds there' where
  present hi := (hiff _).mpr (h.present hi)
  one := h.one
  held ha := h.held ((hiff _).mp ha)

variable [DecidableEq η] {i j : η} {b : Option α}

/-- Instead of what it has, a holder has `b`. -/
theorem exchange (h : Each holds there) (hfresh : ∀ a, b = some a → there a → holds i = some a)
    (hthere : ∀ a, there' a ↔ b = some a ∨ there a ∧ holds i ≠ some a) : Each (Function.update holds i b) there' := by
  -- nobody else has `b`
  have hother : ∀ j a, j ≠ i → b = some a → holds j ≠ some a := fun j a hj hb hja =>
    hj (h.one hja (hfresh a hb (h.present hja)))
  refine ⟨fun {j a} hj => ?_, fun {j k a} hj hk => ?_, fun {a} ha => ?_⟩
  · by_cases hji : j = i
    · subst hji
      rw [Function.update_self] at hj
      exact (hthere a).mpr (.inl hj)
    · rw [Function.update_of_ne hji] at hj
      exact (hthere a).mpr (.inr ⟨h.present hj, fun hi => hji (h.one hj hi)⟩)
  · by_cases hji : j = i
    · by_cases hki : k = i
      · rw [hji, hki]
      · rw [hji, Function.update_self] at hj
        rw [Function.update_of_ne hki] at hk
        exact absurd hk (hother k a hki hj)
    · rw [Function.update_of_ne hji] at hj
      by_cases hki : k = i
      · rw [hki, Function.update_self] at hk
        exact absurd hj (hother j a hji hk)
      · rw [Function.update_of_ne hki] at hk
        exact h.one hj hk
  · obtain hb | ⟨ha, hi⟩ := (hthere a).mp ha
    · exact ⟨i, by rw [Function.update_self, hb]⟩
    · obtain ⟨j, hj⟩ := h.held ha
      have hji : j ≠ i := fun he => hi (he ▸ hj)
      exact ⟨j, by rw [Function.update_of_ne hji, hj]⟩

/-- A holder hands what it has to one that has nothing. -/
theorem hand (h : Each holds there) (hij : j ≠ i) (hj : holds j = none) :
    Each (Function.update (Function.update holds i none) j (holds i)) there := by
  have hgiven : Each (Function.update holds i none) fun a => there a ∧ holds i ≠ some a :=
    h.exchange (fun _ hb => by cases hb) fun a => by simp
  refine hgiven.exchange (fun a hi ha => absurd hi ha.2) fun a => ?_
  rw [Function.update_of_ne hij, hj]
  constructor
  · intro ha
    by_cases hi : holds i = some a
    · exact .inl hi
    · exact .inr ⟨⟨ha, hi⟩, by simp⟩
  · rintro (hi | ⟨⟨ha, -⟩, -⟩)
    · exact h.present hi
    · exact ha

end Each
end Holders
