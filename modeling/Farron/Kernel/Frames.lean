import Farron.Kernel.Sleep

/-! The locks, `sleep`, `wakeup` and `kill` leave the data and the pids alone, and nobody who has been killed
is ever not killed again. -/
namespace Farron
open Resumption
variable {L ι χ δ : Type} [Inhabited L] [DecidableEq ι] [DecidableEq χ]

namespace World

/-- Only the locks, the states and the channels may differ, and `killed` may be set. -/
structure Framed (w w' : World ι χ δ) : Prop where
  data : w'.data = w.data
  pid : ∀ j, (w'.procs j).pid = (w.procs j).pid
  killed : ∀ j, (w.procs j).killed = true → (w'.procs j).killed = true

omit [DecidableEq ι] [DecidableEq χ] in
theorem Framed.refl (w : World ι χ δ) : w.Framed w := ⟨rfl, fun _ => rfl, fun _ => id⟩

omit [DecidableEq χ] in
theorem Framed.setProc (w : World ι χ δ) {f : Proc ι χ → Proc ι χ} (hf : ∀ p, (f p).pid = p.pid)
    (hk : ∀ p, p.killed = true → (f p).killed = true) (i : ι) : w.Framed (w.setProc i f) := by
  refine ⟨rfl, fun j => ?_, fun j => ?_⟩
  all_goals by_cases hj : j = i
  · subst hj
    rw [setProc_same, hf]
  · rw [setProc_ne _ _ _ _ hj]
  · subst hj
    rw [setProc_same]
    exact hk _
  · rw [setProc_ne _ _ _ _ hj]
    exact id

end World

section Frames
variable {R : L → World ι χ δ → World ι χ δ → Prop} (hR : ∀ w w' : World ι χ δ, w.Framed w' → R default w w') (i : ι)
include hR

omit [DecidableEq χ] in
/-- A section on one process. -/
theorem within_setProc {C : World ι χ δ → Prop} [DecidablePred C] {f : Proc ι χ → Proc ι χ} (hf : ∀ p, (f p).pid = p.pid)
    (hkill : ∀ p, p.killed = true → (f p).killed = true) {α : Type} {k : World ι χ δ → Kernel L ι χ δ α} (hk : ∀ w, (k w).Within R fun _ => True) :
    (Prog.act default (fun w => if C w then some (w.setProc i f) else none) k : Kernel L ι χ δ α).Within R fun _ => True := by
  refine ⟨fun w w' h => ?_, hk⟩
  dsimp only at h
  split_ifs at h
  cases h
  exact hR _ _ (.setProc w hf hkill i)

omit [DecidableEq χ] in
theorem within_acquire : (acquire i : Kernel L ι χ δ Unit).Within R fun _ => True := by
  refine ⟨fun w w' h => ?_, fun w => ?_⟩
  · dsimp only at h
    split_ifs at h
    all_goals
      cases h
      exact hR _ _ ⟨rfl, fun _ => rfl, fun _ => id⟩
  · dsimp only
    split_ifs
    · exact trivial
    · exact trivial

omit [DecidableEq χ] in
theorem within_release : (release i : Kernel L ι χ δ Unit).Within R fun _ => True := by
  refine ⟨fun w w' h => ?_, fun w => ?_⟩
  · dsimp only at h
    split_ifs at h
    all_goals
      cases h
      exact hR _ _ ⟨rfl, fun _ => rfl, fun _ => id⟩
  · dsimp only
    split_ifs
    · exact trivial
    · exact trivial

omit [DecidableEq χ] in
theorem within_slumber (c : χ) : (slumber i c : Kernel L ι χ δ Unit).Within R fun _ => True := by
  refine .bind (.change _ _ fun w => hR _ _ (.setProc w (by exact fun _ => rfl) (by exact fun _ => id) i)) fun _ => ?_
  refine .bind (.change _ _ fun w => hR _ _ (.setProc w (by exact fun _ => rfl) (by exact fun _ => id) i)) fun _ => ?_
  refine .bind (within_setProc hR i (by exact fun _ => rfl) (by exact fun _ => id) (by exact fun _ => trivial)) fun _ => ?_
  refine .bind (.change _ _ fun w => hR _ _ (.setProc w (by exact fun _ => rfl) (by exact fun _ => id) i)) fun _ => ?_
  exact .change _ _ fun w => hR _ _ (.setProc w (by exact fun _ => rfl) (by exact fun _ => id) i)

omit [DecidableEq χ] in
theorem within_sleep (c : χ) : (sleep i c : Kernel L ι χ δ Unit).Within R fun _ => True := by
  rw [sleep_eq]
  refine .bind (within_setProc hR i (by exact fun _ => rfl) (by exact fun _ => id) (by exact fun _ => trivial)) fun _ => ?_
  exact .bind (within_release hR i) fun _ => .bind (within_slumber hR i c) fun _ => within_acquire hR i

omit [DecidableEq χ] in
theorem within_sleepElsewhere (c : χ) : (sleepElsewhere i c : Kernel L ι χ δ Unit).Within R fun _ => True :=
  .bind (within_setProc hR i (by exact fun _ => rfl) (by exact fun _ => id) (by exact fun _ => trivial)) fun _ => within_slumber hR i c

theorem within_wakeup (c : χ) (l : List ι) : (wakeup c l : Kernel L ι χ δ Unit).Within R fun _ => True := by
  induction l with
  | nil => exact trivial
  | cons j l ih =>
    refine within_setProc hR j (fun p => ?_) (fun p => ?_) fun _ => ih
    all_goals
      unfold Proc.wake
      split_ifs
    · rfl
    · rfl
    · exact id
    · exact id

omit [DecidableEq χ] in
theorem within_kill (pid : Int) (l : List ι) : (kill pid l : Kernel L ι χ δ Int).Within R fun _ => True := by
  induction l with
  | nil => exact trivial
  | cons j l ih =>
    refine ⟨fun w w' h => ?_, fun w => ?_⟩
    · dsimp only at h
      split_ifs at h
      · cases h
        exact hR _ _ (.setProc w (by exact fun _ => rfl) (by exact fun _ _ => rfl) j)
      · cases h
        exact hR _ _ (.refl w)
    · dsimp only
      split_ifs
      · exact trivial
      · exact ih

omit [DecidableEq ι] [DecidableEq χ] in
theorem within_fetch : (fetch : Kernel L ι χ δ δ).Within R fun _ => True :=
  .look _ _ (fun w => hR _ _ (.refl w)) fun _ => trivial

omit [DecidableEq ι] [DecidableEq χ] in
theorem within_killed : (killed i : Kernel L ι χ δ Bool).Within R fun _ => True :=
  .look _ _ (fun w => hR _ _ (.refl w)) fun _ => trivial

end Frames
end Farron
