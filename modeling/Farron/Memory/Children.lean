import Farron.Memory.Images

/-! Freeing processes.

`freeproc` frees what a slot has, whichever part of it that is, and of a whole image every page. -/
namespace Farron.Memory
open Resumption Radix
variable {ι φ ε : Type} [DecidableEq ι] {board : Board} {m₀ : Ram} {E : Stop → Prop}

/-! ### freeproc -/

section Free
variable {s : Sys ι φ ε} {p : ι} {P₁ P₂ P₃ : Ram → Prop}

/-- What `freeproc` leaves of a process. -/
def Proc.gone (x : Proc ι ε) : Proc ι ε := Proc.freed { x with trapframe := none, kpagetable := none }

section Memory
variable
  (htf : ∀ tf, (s.procs p).trapframe = some tf → (kfree board tf).Ends (Sound board) E s.ram fun _ => P₁)
  (htf' : (s.procs p).trapframe = none → P₁ s.ram)
  (hk : ∀ k m, (s.procs p).kpagetable = some k → P₁ m → (kvmfree board k true).Ends (Sound board) E m fun _ => P₂)
  (hk' : ∀ m, (s.procs p).kpagetable = none → P₁ m → P₂ m)
  (hu : ∀ u m, (s.procs p).pagetable = some u → P₂ m →
    (procFreepagetable board u (s.procs p).sz).Ends (Sound board) E m fun _ => P₃)
  (hu' : ∀ m, (s.procs p).pagetable = none → P₂ m → P₃ m)

include hu hu' in
/-- `freeproc` from the user page table on. -/
theorem comes_freeUsr {m : Ram} (hP : P₂ m) : Comes board E
    (match (s.procs p).pagetable with
      | some pagetable => vm (procFreepagetable board pagetable (s.procs p).sz)
      | none => pure ())
    ⟨m, Function.update s.procs p { s.procs p with trapframe := none, kpagetable := none }, s.nextpid, s.fs⟩
    fun _ s' => ∃ m, s' = ⟨m, Function.update s.procs p { s.procs p with trapframe := none, kpagetable := none },
      s.nextpid, s.fs⟩ ∧ P₃ m := by
  cases hc : (s.procs p).pagetable with
  | none => exact ⟨m, rfl, hu' m hc hP⟩
  | some u =>
    dsimp only
    rw [← bind_pure (vm _)]
    exact comes_vm (hu u m hc hP) fun _ m' hm' => ⟨m', rfl, hm'⟩

include hk hk' hu hu' in
/-- `freeproc` from the kernel page table on. -/
theorem comes_freeKern {m : Ram} (hP : P₁ m) : Comes board E
    (do
      match (s.procs p).kpagetable with
        | some kpagetable => vm (kvmfree board kpagetable true)
        | none => pure ()
      setProc p fun x => { x with kpagetable := none }
      match (s.procs p).pagetable with
        | some pagetable => vm (procFreepagetable board pagetable (s.procs p).sz)
        | none => pure ())
    ⟨m, Function.update s.procs p { s.procs p with trapframe := none }, s.nextpid, s.fs⟩
    fun _ s' => ∃ m, s' = ⟨m, Function.update s.procs p { s.procs p with trapframe := none, kpagetable := none },
      s.nextpid, s.fs⟩ ∧ P₃ m := by
  have hset : ∀ m : Ram, (⟨m, Function.update s.procs p { s.procs p with trapframe := none }, s.nextpid, s.fs⟩ :
      Sys ι φ ε).setProc p (fun x => { x with kpagetable := none }) =
        ⟨m, Function.update s.procs p { s.procs p with trapframe := none, kpagetable := none }, s.nextpid, s.fs⟩ := by
    intro m
    unfold Sys.setProc
    simp only [Function.update_self, Function.update_idem]
  cases hc : (s.procs p).kpagetable with
  | none =>
    apply comes_setProc
    rw [hset]
    exact comes_freeUsr hu hu' (hk' m hc hP)
  | some k =>
    refine comes_vm (hk k m hc hP) fun _ m' hm' => ?_
    apply comes_setProc
    rw [hset]
    exact comes_freeUsr hu hu' hm'

include htf htf' hk hk' hu hu'
/-- What is freed one after the other, each only if it is there. -/
theorem comes_freeMemory_of : Comes board E (freeMemory board p) s fun _ s' => ∃ m,
    s' = ⟨m, Function.update s.procs p { s.procs p with trapframe := none, kpagetable := none }, s.nextpid, s.fs⟩ ∧
      P₃ m := by
  unfold freeMemory
  apply comes_look
  cases hc : (s.procs p).trapframe with
  | none =>
    apply comes_setProc
    exact comes_freeKern hk hk' hu hu' (htf' hc)
  | some tf =>
    refine comes_vm (htf tf hc) fun _ m' hm' => ?_
    apply comes_setProc
    exact comes_freeKern hk hk' hu hu' hm'

variable (P₁ P₂ P₃) in
theorem comes_freeproc_of : Comes board E (freeproc board p) s fun _ s' =>
    ∃ m, s' = ⟨m, Function.update s.procs p (s.procs p).gone, s.nextpid, s.fs⟩ ∧ P₃ m := by
  refine (comes_freeMemory_of htf htf' hk hk' hu hu').bind fun _ s' hs' => ?_
  obtain ⟨m, rfl, hP⟩ := hs'
  refine comes_setProc_last ⟨m, ?_, hP⟩
  unfold Sys.setProc
  simp only [Function.update_self, Function.update_idem]
  rfl

end Memory

/-- A process's whole image is freed. -/
theorem comes_freeproc {im : Image} {R : Multiset (Page × Use)} (hm : Booted board m₀)
    (hsh : Shows (s.procs p) im) (hfit : Fit board m₀ s.ram im) (hb : Books board m₀ (im.owned s.ram + R) s.ram) :
    Comes board E (freeproc board p) s fun _ s' =>
      ∃ m, s' = ⟨m, Function.update s.procs p (s.procs p).gone, s.nextpid, s.fs⟩ ∧ Books board m₀ R m ∧ Same R s.ram m := by
  have hus : im.us.length ≤ 0x5E0 := by
    refine (hb.congr ?_ : Books board m₀ (userPages im.us + (tabs (pagesOf s.ram Finset.univ im.upt) +
      (tabs (pagesOf s.ram procIdx im.kpt) + (((im.stack, .stack) ::ₘ {(im.tf, .trapframe)}) + R)))) s.ram).length_le hm.stocked
    unfold Image.owned Image.pages
    abel
  refine comes_freeproc_of
    (fun m => Fit board m₀ m im ∧ Books board m₀ (tabs (pagesOf m procIdx im.kpt) + ((im.stack, .stack) ::ₘ
      (tabs (pagesOf m Finset.univ im.upt) + (userPages im.us + R)))) m ∧ Same R s.ram m)
    (fun m => Holds board m₀ Finset.univ (usrMap board im.tf im.us) im.upt (userPages im.us + R) m ∧ Same R s.ram m)
    (fun m => Books board m₀ R m ∧ Same R s.ram m)
    (fun tf htf => ?_) (fun h => ?_) (fun k m hk h => ?_) (fun m hk => ?_) (fun u m hu h => ?_) (fun m hu => ?_)
  · rw [hsh.trapframe] at htf
    cases htf
    have hb' : Books board m₀ ((im.tf, .trapframe) ::ₘ (tabs (pagesOf s.ram procIdx im.kpt) + ((im.stack, .stack) ::ₘ
        (tabs (pagesOf s.ram Finset.univ im.upt) + (userPages im.us + R))))) s.ram := by
      refine hb.congr ?_
      unfold Image.owned Image.pages
      simp only [← Multiset.singleton_add]
      abel
    refine (ends_kfree hm.stocked (sound_allows hm.stocked) hb' trivial).imp fun _ m' h => ?_
    obtain ⟨hb₁, hs₁, -⟩ := h
    have hk := hs₁.left
    have hu := hs₁.right.tail.left
    refine ⟨⟨hfit.user.same hu, hfit.kern.same hk, fun j hj => ?_⟩, hb₁.congr ?_, hs₁.right.tail.right.right⟩
    · rw [← hfit.row j hj, hk.tabs_heap (root_mem_pagesOf s.ram procIdx im.kpt)]
    · rw [hk.pagesOf, hu.pagesOf]
  · rw [hsh.trapframe] at h
    cases h
  · rw [hsh.kpagetable] at hk
    cases hk
    obtain ⟨hfit, hb, hs⟩ := h
    have hstack : kernMap (some im.stack) im.us 0x3EC0000 = some ⟨im.stack, (pteR ||| pteW) ||| pteV⟩ := rfl
    refine (ends_kvmfree_true hm.stocked (teardown_allows hm.stocked) (by decide) (by decide) ⟨hfit.kern, hb⟩ hstack).imp fun _ m' h => ?_
    obtain ⟨hb', hs'⟩ := h
    refine ⟨⟨hfit.user.same hs'.left, ?_⟩, hs.trans hs'.right.right⟩
    rw [hs'.left.pagesOf]
    exact hb'
  · intro h
    rw [hsh.kpagetable] at hk
    cases hk
  · rw [hsh.pagetable] at hu
    cases hu
    refine (ends_procFreepagetable hm (sound_allows hm.stocked) trivial trivial hsh.size (by omega) h.1).imp fun _ m' h' => ?_
    exact ⟨h'.1, h.2.trans h'.2⟩
  · rw [hsh.pagetable] at hu
    cases hu

end Free
end Farron.Memory
