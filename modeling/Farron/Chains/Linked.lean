import Mathlib.Data.List.Nodup
import Mathlib.Data.List.Lemmas
import Mathlib.Data.List.Basic

/-! Chains threaded through a successor table.

A table gives every key a value. A list of keys is linked in it (`Linked`) when
each key's value is the next key and the last key's value is an end mark. What
follows is how a chain reads in the table, and that it survives changes of the
table elsewhere, an append at its end and the loss of its first key. -/
namespace Chains
variable {κ : Type}

structure Linked (next : κ → κ) (ends : κ → Prop) (l : List κ) : Prop where
  step : ∀ i c d, l[i]? = some c → l[i + 1]? = some d → next c = d
  last : ∀ i c, l[i]? = some c → l[i + 1]? = none → ends (next c)

variable {next next' : κ → κ} {ends : κ → Prop} {l : List κ}

theorem Linked.nil : Linked next ends [] :=
  ⟨fun i c d h => by simp at h, fun i c h => by simp at h⟩

theorem Linked.congr (h : Linked next ends l) (hn : ∀ c ∈ l, next' c = next c) :
    Linked next' ends l where
  step i c d hc hd := by
    rw [hn c (List.mem_of_getElem? hc)]
    exact h.step i c d hc hd
  last i c hc hd := by
    rw [hn c (List.mem_of_getElem? hc)]
    exact h.last i c hc hd

theorem Linked.tail {c : κ} (h : Linked next ends (c :: l)) : Linked next ends l where
  step i a b ha hb := h.step (i + 1) a b (by simpa using ha) (by simpa using hb)
  last i a ha hb := h.last (i + 1) a (by simpa using ha) (by simpa using hb)

theorem Linked.head {c d : κ} {rest : List κ} (h : Linked next ends (c :: d :: rest)) : next c = d :=
  h.step 0 c d rfl rfl

theorem Linked.single {c : κ} (h : ends (next c)) : Linked next ends [c] where
  step i a b ha hb := by simp at hb
  last i a ha _ := by
    cases i with
    | zero =>
      obtain rfl : c = a := by simpa using ha
      exact h
    | succ i => simp at ha

/-- A key in front of the first one. -/
theorem Linked.cons {c : κ} (h : Linked next ends l) (hhead : ∀ d, l.head? = some d → next c = d)
    (hend : l = [] → ends (next c)) : Linked next ends (c :: l) where
  step i a b ha hb := by
    cases i with
    | zero =>
      cases ha
      exact hhead b (by rw [List.head?_eq_getElem?]; exact hb)
    | succ i => exact h.step i a b ha hb
  last i a ha hb := by
    cases i with
    | zero =>
      cases ha
      exact hend (List.eq_nil_of_length_eq_zero (Nat.le_zero.mp (List.getElem?_eq_none_iff.mp hb)))
    | succ i => exact h.last i a ha hb

variable [DecidableEq κ]

/-- Linking a key behind the last one: the table changes at the last key only, and the
new key's value is an end mark. -/
theorem Linked.append (h : Linked next ends l) (hnd : l.Nodup) {i : Nat} {c d : κ}
    (hc : l[i]? = some c) (hi : i + 1 = l.length) (hd : d ∉ l) (he : ends (next d)) :
    Linked (Function.update next c d) ends (l ++ [d]) where
  step j a b ha hb := by
    have hj : j < l.length := by
      have := (List.getElem?_eq_some_iff.mp hb).1
      simp only [List.length_append, List.length_singleton] at this
      omega
    rw [List.getElem?_append_left hj] at ha
    by_cases hji : j = i
    · subst hji
      obtain rfl : c = a := by simpa [hc] using ha
      rw [Function.update_self]
      rw [List.getElem?_append_right (by omega), show j + 1 - l.length = 0 by omega] at hb
      simpa using hb
    · have hac : a ≠ c := by
        rintro rfl
        have hj' := List.getElem?_eq_some_iff.mp ha
        have hi' := List.getElem?_eq_some_iff.mp hc
        exact hji ((List.Nodup.getElem_inj_iff hnd).mp (hj'.2.trans hi'.2.symm))
      rw [List.getElem?_append_left (by omega)] at hb
      rw [Function.update_of_ne hac]
      exact h.step j a b ha hb
  last j a ha hb := by
    have hj : j = l.length := by
      have h1 := List.getElem?_eq_none_iff.mp hb
      have h2 := (List.getElem?_eq_some_iff.mp ha).1
      simp only [List.length_append, List.length_singleton] at h1 h2
      omega
    subst hj
    obtain rfl : d = a := by simpa using ha
    have hdc : d ≠ c := by
      rintro rfl
      exact hd (List.mem_of_getElem? hc)
    rw [Function.update_of_ne hdc]
    exact he

end Chains
