import Farron.Memory.Images

/-! The size of a process: `growproc`, and `sys_sbrk` from `kernel/sysproc.c`.

`Space` is the memory of one process, whatever the others have: every page below its size is
mapped in both of its page tables, and no user page above it. Where a process asks for more than
nothing, and for less than half of what a `uint` counts, it is given all of it or nothing
(`ends_growproc`). -/
namespace Farron.Memory
open Resumption

variable {ι φ ε : Type} [DecidableEq ι]

/-- The answer of the system call for -1. -/
def minusOne : Nat := 2 ^ 64 - 1

/-- `n` is what `argint` finds; `addr` is an `int`. -/
def sysSbrk (board : Board) (p : ι) (n : Int) : Code ι φ ε Nat := do
  let s ← Prog.look .plain
  let addr := ofInt32 (s.procs p).sz
  if (← growproc board p n) < 0 then return minusOne else return addr

/-- The memory of process `p`. -/
def Space (board : Board) (m₀ : Ram) (p : ι) (s : Sys ι φ ε) : Prop :=
  ∃ u k f g us R, (s.procs p).pagetable = some u ∧ (s.procs p).kpagetable = some k ∧
    Pair board m₀ procIdx f g u k (userPages us + R) s.ram ∧ us.length = npages (s.procs p).sz ∧
    (∀ v, v < npages (s.procs p).sz → (f v).isSome ∧ (g v).isSome) ∧
    NoUser f (npages (s.procs p).sz) ∧ NoUser g (npages (s.procs p).sz)

variable {board : Board} {m₀ : Ram} {p : ι} {s s' : Sys ι φ ε} {n : Nat}

omit [DecidableEq ι] in
/-- There is not much physical memory. -/
theorem Space.small (hm : Stocked board m₀) (h : Space board m₀ p s) : npages (s.procs p).sz ≤ 0x5E0 ∧ (s.procs p).sz < 2 ^ 31 := by
  obtain ⟨u, k, f, g, us, R, -, -, hpair, hlen, -, -, -⟩ := h
  have hbooks : Books board m₀ (userPages us + (R + (tabs (pagesOf s.ram Finset.univ u) + tabs (pagesOf s.ram procIdx k)))) s.ram := by
    refine hpair.books.congr ?_
    abel
  have hfew := hbooks.length_le hm
  rw [hlen] at hfew
  refine ⟨hfew, ?_⟩
  unfold npages at hfew
  omega

/-- What a slot of the process table has is its memory. -/
theorem Held.space [Fintype ι] {T : ι → Option Image} {im : Image} (h : Held board m₀ s T) (hp : T p = some im)
    (hm : Stocked board m₀) : Space board m₀ p s := by
  obtain ⟨hshows, hfit, hbooks⟩ := h.image hp
  have hfew : im.us.length ≤ 0x5E0 := by
    refine (hbooks.congr ?_ : Books board m₀ (userPages im.us + (tabs (pagesOf s.ram Finset.univ im.upt) +
      (tabs (pagesOf s.ram procIdx im.kpt) + ((im.stack, .stack) ::ₘ (im.tf, .trapframe) ::ₘ rest s.ram T p)))) s.ram).length_le hm
    abel
  refine ⟨im.upt, im.kpt, _, _, im.us, _, hshows.pagetable, hshows.kpagetable, ⟨hfit.user, hfit.kern, hbooks⟩, hshows.size.symm, ?_, ?_, ?_⟩
  · rw [hshows.size]
    intro v hv
    simp only [usrMap, kernMap, if_pos (by omega : v < 2 ^ 19), List.getElem?_eq_getElem hv, Option.isSome_some, Option.map_some, and_self]
  · rw [hshows.size]
    intro v hv hlt
    rw [usrMap, if_pos hlt, List.getElem?_eq_none hv]
  · rw [hshows.size]
    intro v hv hlt
    rw [kernMap, if_pos hlt, List.getElem?_eq_none hv, Option.map_none]

/-- Pages were put over the maps, as many as the new size needs. -/
theorem Space.grown {u k : Page} {f g : Nat → Option Pte} {us new : List Pte} {R : Multiset (Page × Use)} {m : Ram} {sz sz' : Nat}
    {want : Nat → Nat × (Nat → Byte)} (hu : (s.procs p).pagetable = some u) (hk : (s.procs p).kpagetable = some k)
    (hlen : us.length = npages sz) (hall : ∀ v, v < npages sz → (f v).isSome ∧ (g v).isSome)
    (hf : NoUser f (npages sz)) (hg : NoUser g (npages sz)) (hnew : new.length = npages sz' - npages sz) (hle : npages sz ≤ npages sz')
    (h : Mapped board m₀ procIdx f g u k (userPages us + R) (npages sz) want new m) :
    Space board m₀ p (({ s with ram := m } : Sys ι φ ε).setProc p (Proc.resize sz')) := by
  have hadd : npages sz + new.length = npages sz' := by omega
  have hkern : (new.map Pte.kern).length = new.length := List.length_map _
  refine ⟨u, k, mapAll f (npages sz) new, mapAll g (npages sz) (new.map Pte.kern), new ++ us, R, ?_, ?_, ?_, ?_, ?_, ?_, ?_⟩
  · rw [setProc_same]
    exact hu
  · rw [setProc_same]
    exact hk
  · refine h.pair.rest ?_
    rw [userPages_append, add_assoc]
  · rw [setProc_same, List.length_append, hlen]
    show new.length + npages sz = npages sz'
    omega
  · rw [setProc_same]
    intro v hv
    have hv : v < npages sz' := hv
    by_cases hold : v < npages sz
    · simp only [mapAll, if_neg (by omega : ¬ (npages sz ≤ v ∧ v < npages sz + new.length)),
        if_neg (by omega : ¬ (npages sz ≤ v ∧ v < npages sz + (new.map Pte.kern).length))]
      exact hall v hold
    · exact ⟨mapAll_isSome (by omega) (by omega), mapAll_isSome (by omega) (by omega)⟩
  · rw [setProc_same]
    intro v hv hlt
    have hv : npages sz' ≤ v := hv
    rw [mapAll, if_neg (by omega)]
    exact hf v (by omega) hlt
  · rw [setProc_same]
    intro v hv hlt
    have hv : npages sz' ≤ v := hv
    rw [mapAll, if_neg (by omega)]
    exact hg v (by omega) hlt

omit [DecidableEq ι] in
theorem comes_pagetables {u k : Page} {E : Stop → Prop} (hu : (s.procs p).pagetable = some u) (hk : (s.procs p).kpagetable = some k) :
    Comes board E (pagetables p) s fun r s' => r = (u, k) ∧ s' = s := by
  unfold pagetables
  apply comes_look
  simp only [hu, hk, deref]
  exact ⟨rfl, rfl⟩

/-- More memory: all that was asked for, or nothing. -/
theorem ends_growproc (hm : Stocked board m₀) (h : Space board m₀ p s) (hpos : 0 < n) (hlt : n < 2 ^ 31) :
    Comes board (fun _ => False) (growproc board p n) s fun r s' => Space board m₀ p s' ∧
      ((r = -1 ∧ (s'.procs p).sz = (s.procs p).sz) ∨ (r = 0 ∧ (s'.procs p).sz = (s.procs p).sz + n)) := by
  obtain ⟨hfew, hsz⟩ := h.small hm
  obtain ⟨u, k, f, g, us, R, hu, hk, hpair, hlen, hall, hf, hg⟩ := h
  have hold : u32 (s.procs p).sz = (s.procs p).sz := Nat.mod_eq_of_lt (by omega)
  have hnew : (((u32 (s.procs p).sz : Nat) + (n : Int)) % 2 ^ 32).toNat = (s.procs p).sz + n := by
    rw [hold]
    omega
  have hle : npages (s.procs p).sz ≤ npages ((s.procs p).sz + n) := by
    unfold npages
    omega
  have hmax : npages ((s.procs p).sz + n) ≤ 2 ^ 19 ∨ npages (s.procs p).sz + 0x5E0 < 2 ^ 19 := .inr (by omega)
  unfold growproc
  apply comes_look
  apply (comes_pagetables hu hk).bind
  intro _ s₁ h₁
  obtain ⟨rfl, h₁⟩ := h₁
  rw [h₁]
  simp only [hnew]
  rw [if_pos (by omega), hold]
  refine comes_vm (ends_uvmalloc_of (E := fun _ => False) hm (sound_allows hm) trivial (by decide) hf hg rfl
    (Nat.le_add_right _ n) (by omega) hmax hpair) fun r m' hr => ?_
  obtain ⟨-, ⟨rfl, hback, -⟩ | ⟨rfl, new, hnewlen, hmapped⟩⟩ := hr
  · exact ⟨⟨u, k, f, g, us, R, hu, hk, hback, hlen, hall, hf, hg⟩, .inl ⟨rfl, rfl⟩⟩
  · have hnz : u32 ((s.procs p).sz + n) = (s.procs p).sz + n := Nat.mod_eq_of_lt (by omega)
    rw [hnz, if_neg (by omega)]
    apply comes_setProc
    refine ⟨Space.grown hu hk hlen hall hf hg hnewlen hle hmapped, .inr ⟨rfl, ?_⟩⟩
    rw [setProc_same]
    rfl

/-- So the system call gives the end of the memory, or -1. -/
theorem run_sysSbrk (hm : Stocked board m₀) (h : Space board m₀ p s) (hpos : 0 < n) (hlt : n < 2 ^ 31) :
    ∃ r s', (sysSbrk board p n).run s = .done r s' ∧ Space board m₀ p s' ∧
      ((r = minusOne ∧ (s'.procs p).sz = (s.procs p).sz) ∨
        (r = (s.procs p).sz ∧ r ≠ minusOne ∧ (s'.procs p).sz = (s.procs p).sz + n)) := by
  have hsz := (h.small hm).2
  have haddr : ofInt32 (s.procs p).sz = (s.procs p).sz := ofInt32_of_lt hsz
  have hends : Comes board (fun _ => False) (sysSbrk board p n) s fun r s' => Space board m₀ p s' ∧
      ((r = minusOne ∧ (s'.procs p).sz = (s.procs p).sz) ∨
        (r = (s.procs p).sz ∧ r ≠ minusOne ∧ (s'.procs p).sz = (s.procs p).sz + n)) := by
    unfold sysSbrk
    apply comes_look
    apply (ends_growproc hm h hpos hlt).bind
    intro r s' hr
    obtain ⟨hspace, ⟨rfl, hsame⟩ | ⟨rfl, hgrown⟩⟩ := hr
    · exact ⟨hspace, .inl ⟨rfl, hsame⟩⟩
    · refine ⟨hspace, .inr ⟨haddr, ?_, hgrown⟩⟩
      show ofInt32 (s.procs p).sz ≠ minusOne
      rw [haddr, minusOne]
      omega
  exact hends.returns

end Farron.Memory
