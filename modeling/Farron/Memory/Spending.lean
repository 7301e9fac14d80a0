import Farron.Memory.Resize

/-! How many pages a function takes.

`Spends c n` is about the text of `c` alone: whatever the memory holds, a run takes at most `n`
pages more off the free list than it puts back. There is one rule for each construct; growing an
address space spends at most five pages for each page that is mapped: the page and two for
each page table. -/
namespace Farron.Memory
open Resumption Radix

/-- At most `n` pages more are taken than are put back. -/
def Spends {α : Type} (c : Vm α) (n : Nat) : Prop :=
  ∀ m : Ram, c.Ends (fun _ _ => True) (fun _ => True) m fun _ m' => m.free.length ≤ m'.free.length + n

variable {α β : Type} {n n' : Nat} {board : Board}

namespace Spends

theorem ret (a : α) (n : Nat) : Spends (Prog.ret a : Vm α) n := fun m => Nat.le_add_right m.free.length n

theorem stop (e : Stop) (n : Nat) : Spends (Prog.stop e : Vm α) n := fun _ => trivial

theorem mono {c : Vm α} (h : Spends c n) (hle : n ≤ n') : Spends c n' := by
  intro m
  refine (h m).imp fun _ m' hm' => ?_
  omega

theorem bind {c : Vm α} {k : α → Vm β} (h : Spends c n) (hk : ∀ a, Spends (k a) n') : Spends (c >>= k) (n + n') := by
  intro m
  apply (h m).bind
  intro a m₁ h₁
  refine (hk a m₁).imp fun _ m₂ h₂ => ?_
  omega

/-- What comes first spends nothing. -/
theorem bind_free {c : Vm α} {k : α → Vm β} (h : Spends c 0) (hk : ∀ a, Spends (k a) n) : Spends (c >>= k) n := by
  have hb := h.bind hk
  rwa [Nat.zero_add] at hb

/-- What comes last spends nothing. -/
theorem bind_last {c : Vm α} {k : α → Vm β} (h : Spends c n) (hk : ∀ a, Spends (k a) 0) : Spends (c >>= k) n := h.bind hk

theorem ite {p : Prop} [Decidable p] {c c' : Vm α} (h : p → Spends c n) (h' : ¬ p → Spends c' n) : Spends (if p then c else c') n := by
  by_cases hp : p
  · rw [if_pos hp]
    exact h hp
  · rw [if_neg hp]
    exact h' hp

/-- A section that leaves the free list alone. -/
theorem change {l : Label} {f : Ram → Ram} (hf : ∀ m, (f m).free = m.free) : Spends (Prog.change l f : Vm Unit) 0 := by
  intro m
  refine ⟨trivial, f m, rfl, ?_⟩
  show m.free.length ≤ (f m).free.length + 0
  rw [hf]
  exact Nat.le_refl _

theorem look : Spends (Prog.look .plain : Vm Ram) 0 := fun m => ⟨trivial, m, rfl, Nat.le_refl _⟩

end Spends

/-! ### Pages and page tables -/

theorem spends_kalloc (u : Use) : Spends (kalloc u) 1 := by
  intro m
  refine ⟨trivial, m.pop u, rfl, ?_⟩
  show m.free.length ≤ (m.pop u).free.length + 1
  unfold Ram.pop
  cases m.free with
  | nil => exact Nat.zero_le _
  | cons r rest => exact Nat.le_refl _

theorem spends_kfree (pa : Page) : Spends (kfree board pa) 0 := by
  unfold kfree
  refine .ite (fun _ m => ⟨trivial, m.push pa, rfl, ?_⟩) fun _ => .stop _ _
  show m.free.length ≤ (pa :: m.free).length + 0
  rw [List.length_cons]
  omega

theorem spends_memset (p : Page) (c : Byte) : Spends (memset p c) 0 := .change fun _ => rfl

theorem spends_loadPte (slot : Slot) : Spends (loadPte slot) 0 := Spends.look.bind_free fun _ => .ret _ _

theorem spends_storePte (slot : Slot) (pte : Nat) : Spends (storePte slot pte) 0 := .change fun _ => rfl

theorem spends_walkFrom (va : Nat) (alloc : Bool) (l : Nat) (p : Page) : Spends (walkFrom va alloc l p) (if alloc then l else 0) := by
  induction l generalizing p with
  | zero => exact .ret _ _
  | succ l ih =>
    unfold walkFrom
    refine (spends_loadPte _).bind_free fun pte => .ite (fun _ => ?_) fun _ => ?_
    · refine (ih _).mono ?_
      split <;> omega
    · cases alloc with
      | false => exact .ret _ _
      | true =>
        simp only [if_true] at ih ⊢
        rw [Nat.add_comm l 1]
        refine (spends_kalloc .table).bind fun r => ?_
        cases r with
        | none => exact .ret _ _
        | some next => exact (spends_memset _ _).bind_free fun _ => (spends_storePte _ _).bind_free fun _ => ih next

theorem spends_walk (root va : Nat) (alloc : Bool) : Spends (walk root va alloc) (if alloc then 2 else 0) := by
  unfold walk
  exact .ite (fun _ => .stop _ _) fun _ => spends_walkFrom va alloc 2 root

/-- `mappages` of one page. -/
theorem spends_mappages {a : Nat} (root : Page) (pa : Page) (perm : Nat) (ha : a % pgsize = 0) (hlt : a < 2 ^ 64) :
    Spends (mappages root a pgsize pa perm) 2 := by
  have hlast : pgrounddown a = pgrounddown (u64 (a + pgsize + 2 ^ 64 - 1)) := by
    simp only [pgsize_eq] at ha
    simp only [pgrounddown, u64, pgsize_eq]
    omega
  unfold mappages
  rw [← hlast]
  unfold mapLoop
  refine (spends_walk root _ true).bind_last fun r => ?_
  cases r with
  | none => exact .ret _ _
  | some slot =>
    refine (spends_loadPte slot).bind_free fun pte => .ite (fun _ => .stop _ _) fun _ => (spends_storePte _ _).bind_free fun _ => ?_
    rw [if_pos rfl]
    exact .ret _ _

theorem spends_unmapLoop (root : Page) (d : Bool) (rounds a : Nat) : Spends (unmapLoop board root d rounds a) 0 := by
  induction rounds generalizing a with
  | zero => exact .ret _ _
  | succ rounds ih =>
    unfold unmapLoop
    refine (spends_walk root a false).bind_free fun r => ?_
    cases r with
    | none => exact .stop _ _
    | some slot =>
      refine (spends_loadPte slot).bind_free fun pte => .ite (fun _ => .stop _ _) fun _ => .ite (fun _ => .stop _ _) fun _ => ?_
      have hfree : Spends (if d then kfree board (pte2pa pte) else pure ()) 0 := .ite (fun _ => spends_kfree _) fun _ => .ret _ _
      exact hfree.bind_free fun _ => (spends_storePte _ _).bind_free fun _ => ih _

theorem spends_vmunmap (root : Page) (va n : Nat) (d : Bool) : Spends (vmunmap board root va n d) 0 := by
  unfold vmunmap
  exact .ite (fun _ => .stop _ _) fun _ => spends_unmapLoop _ _ _ _

theorem spends_uvmdealloc (u k : Page) (oldsz newsz : Nat) : Spends (uvmdealloc board u k oldsz newsz) 0 := by
  unfold uvmdealloc
  exact .ite (fun _ => .ret _ _) fun _ => .ite
    (fun _ => (spends_vmunmap _ _ _ _).bind_free fun _ => (spends_vmunmap _ _ _ _).bind_free fun _ => .ret _ _) fun _ => .ret _ _

/-! ### Growing -/

theorem spends_growLoop {a : Nat} (u k : Page) (oldsz newsz rounds : Nat) (ha : a % pgsize = 0) (hlt : a < 2 ^ 63 + 2 ^ 13) (hmax : newsz < 2 ^ 63) :
    Spends (growLoop board u k oldsz newsz rounds a) (5 * npages (newsz - a)) := by
  induction rounds generalizing a with
  | zero => exact .stop _ _
  | succ rounds ih =>
    unfold growLoop
    refine .ite (fun hmore => ?_) fun _ => .ret _ _
    simp only [pgsize_eq] at ha
    have hnext : u64 (a + pgsize) = a + pgsize := by
      simp only [u64, pgsize_eq]
      omega
    have hpages : 1 + (2 + (2 + 5 * npages (newsz - (a + pgsize)))) = 5 * npages (newsz - a) := by
      unfold npages
      simp only [pgsize_eq]
      omega
    rw [← hpages]
    refine (spends_kalloc .user).bind fun r => ?_
    cases r with
    | none => exact (spends_uvmdealloc _ _ _ _).bind_free fun _ => .ret _ _
    | some mem =>
      refine (spends_memset _ _).bind_free fun _ => (spends_mappages u mem _ ha (by omega)).bind fun r => .ite (fun _ => ?_) fun _ => ?_
      · exact (spends_kfree _).bind_free fun _ => (spends_uvmdealloc _ _ _ _).bind_free fun _ => .ret _ _
      · refine (spends_mappages k mem _ ha (by omega)).bind fun r => .ite (fun _ => ?_) fun _ => ?_
        · exact (spends_vmunmap _ _ _ _).bind_free fun _ => (spends_vmunmap _ _ _ _).bind_free fun _ => .ret _ _
        · rw [hnext]
          refine ih ?_ ?_
          · simp only [pgsize_eq]
            omega
          · simp only [pgsize_eq]
            omega

/-- Growing spends at most five pages for each page mapped. -/
theorem spends_uvmalloc (u k : Page) {oldsz newsz : Nat} (hold : oldsz < 2 ^ 63) (hmax : newsz < 2 ^ 63) :
    Spends (uvmalloc board u k oldsz newsz) (5 * (npages newsz - npages oldsz)) := by
  have hstart : pgroundup oldsz = npages oldsz * pgsize := pgroundup_of_lt hold
  unfold uvmalloc
  refine .ite (fun _ => .ret _ _) fun _ => ?_
  rw [hstart]
  refine (spends_growLoop u k _ newsz _ ?_ ?_ hmax).mono ?_
  · exact Nat.mul_mod_left _ _
  · unfold npages
    simp only [pgsize_eq]
    omega
  · unfold npages
    simp only [pgsize_eq]
    omega

end Farron.Memory
