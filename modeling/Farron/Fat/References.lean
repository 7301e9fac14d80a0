import Farron.Fat.Cache
import Farron.Resumption.Rely
import Mathlib.Data.Fintype.Option

/-! The references of the cache that its entries have: a live one has a reference on its parent. -/
namespace Farron
open Resumption

instance : Fintype Ptr :=
  Fintype.ofEquiv (Option Slot)
    { toFun := fun o => o.elim .root .entry
      invFun := fun e => match e with
        | .root => none
        | .entry i => some i
      left_inv := fun o => by cases o <;> rfl
      right_inv := fun e => by cases e <;> rfl }

/-! ### Live entries -/

/-- The entry has a reference and is a file's. -/
def Dirent.Live (x : Dirent) : Prop := 0 < x.ref ∧ x.valid ≠ 0

instance (x : Dirent) : Decidable x.Live := inferInstanceAs (Decidable (_ ∧ _))

/-- The reference of an entry on `p`. -/
def Dirent.childOf (x : Dirent) (p : Ptr) : Nat := if x.Live ∧ x.parent = some p then 1 else 0

/-- The references on `p` that its entries have. -/
def State.children (s : State) (p : Ptr) : Nat := ∑ e, (s.dirents e).childOf p

theorem Dirent.childOf_congr {x y : Dirent} (hl : x.Live ↔ y.Live) (hp : y.Live → x.parent = y.parent) (p : Ptr) :
    x.childOf p = y.childOf p := by
  unfold Dirent.childOf
  by_cases hy : y.Live
  · rw [hp hy]
    simp only [hl]
  · have hx : ¬ x.Live := fun h => hy (hl.mp h)
    rw [if_neg fun h => hx h.1, if_neg fun h => hy h.1]

theorem Dirent.childOf_dead {x : Dirent} (h : ¬ x.Live) (p : Ptr) : x.childOf p = 0 := if_neg fun hx => h hx.1

theorem Dirent.childOf_same {x : Dirent} {p : Ptr} (h : x.Live) (hp : x.parent = some p) : x.childOf p = 1 :=
  if_pos ⟨h, hp⟩

theorem Dirent.childOf_other {x : Dirent} {p p' : Ptr} (hp : x.parent = some p) (hne : p' ≠ p) :
    x.childOf p' = 0 :=
  if_neg fun h => hne (Option.some.inj (h.2.symm.trans hp))

theorem State.children_setDirent (s : State) (e : Ptr) (f : Dirent → Dirent) (p : Ptr) :
    (s.setDirent e f).children p + (s.dirents e).childOf p = s.children p + (f (s.dirents e)).childOf p :=
  sum_update s.dirents e (f (s.dirents e)) fun y => y.childOf p

theorem State.childOf_le (s : State) (e p : Ptr) : (s.dirents e).childOf p ≤ s.children p :=
  Finset.single_le_sum (f := fun e => (s.dirents e).childOf p) (fun _ _ => Nat.zero_le _) (Finset.mem_univ e)

end Farron
