import Farron.Memory.Teardown
import Mathlib.Order.Interval.Finset.Nat

/-! The address space of a process: two page tables in step.

The user pages of a process are a list: page number `v` is mapped to the `v`-th of them, in
the user page table with its flags and in the kernel page table with these flags less
`PTE_U` (`usrMap`, `kernMap`). A user page table starts without user pages, and is freed
together with those it has. -/
namespace Farron.Memory
open Resumption Radix

variable {board : Board} {m₀ m m' m'' : Ram} {R R' : Multiset (Page × Use)} {K : Finset (Fin 512)}
  {f f' g g' : Nat → Option Pte} {u k p tf : Page} {us new : List Pte} {stack : Option Page}

/-! ### What the tables map -/

/-- The leaf of the kernel page table for a leaf of the user's. -/
def Pte.kern (e : Pte) : Pte := ⟨e.page, noU e.flags⟩

def usrMap (board : Board) (tf : Page) (us : List Pte) (v : Nat) : Option Pte :=
  if v < 2 ^ 19 then us[v]?
  else if v = 2 ^ 26 - 1 then some ⟨board.trampoline, (pteR ||| pteX) ||| pteV⟩
  else if v = 2 ^ 26 - 2 then some ⟨tf, (pteR ||| pteW) ||| pteV⟩
  else none

def kernMap (stack : Option Page) (us : List Pte) (v : Nat) : Option Pte :=
  if v < 2 ^ 19 then us[v]?.map Pte.kern
  else if v = 0x3EC0000 then stack.map fun p => ⟨p, (pteR ||| pteW) ||| pteV⟩
  else none

/-- User pages, owned. -/
def userPages (us : List Pte) : Multiset (Page × Use) := (us.map fun e => (e.page, Use.user) : List (Page × Use))

@[simp] theorem userPages_nil : userPages [] = 0 := rfl

theorem userPages_append (us new : List Pte) : userPages (us ++ new) = userPages us + userPages new := by
  simp only [userPages, List.map_append, Multiset.coe_add]

theorem userPages_singleton (e : Pte) : userPages [e] = {(e.page, .user)} := rfl

theorem mem_userPages {e : Pte} (h : e ∈ us) : (e.page, Use.user) ∈ userPages us :=
  Multiset.mem_coe.mpr (List.mem_map_of_mem h)

/-- The flags of a user page: all, or without `PTE_U`. -/
def UserFlags (e : Pte) : Prop := e.flags = 31 ∨ e.flags = 15

/-- What is mapped from a page number on, if it is this list. -/
theorem mapped_eq_userPages {v : Nat} (h : ∀ i, i < new.length → f (v + i) = new[i]?) :
    mapped f .user v new.length = userPages new := by
  induction new generalizing v with
  | nil => rfl
  | cons e new ih =>
    have he : f v = some e := h 0 (Nat.succ_pos _)
    rw [List.length_cons, mapped_succ he, ih]
    · rfl
    · intro i hi
      rw [show v + 1 + i = v + (i + 1) by omega, h (i + 1) (Nat.succ_lt_succ hi), List.getElem?_cons_succ]

/-! ### Few pages -/

theorem usrIdx_of_lt {v : Nat} (h : v < 2 ^ 19) : px (v * pgsize) 2 ∈ usrIdx := by
  have hval := px_val v 2 (Nat.le_refl 2)
  have hlt : (px (v * pgsize) 2 : Nat) < 2 := by
    rw [hval]
    norm_num
    omega
  have hcase : px (v * pgsize) 2 = 0 ∨ px (v * pgsize) 2 = 1 := by
    rcases (by omega : (px (v * pgsize) 2 : Nat) = 0 ∨ (px (v * pgsize) 2 : Nat) = 1) with h0 | h1
    · exact .inl (Fin.ext h0)
    · exact .inr (Fin.ext h1)
  unfold usrIdx
  rw [Finset.mem_insert, Finset.mem_singleton]
  exact hcase

theorem free_length_le (hm : Stocked board m₀) : m₀.free.length ≤ 0x5E0 := by
  have hn : m₀.free.Nodup := Multiset.coe_nodup.mp (Multiset.nodup_add.mp hm.nodup).1
  have hbase := hm.kernbase
  have hrange : ∀ n : Nat, board.kernelEnd ≤ n * pgsize → n * pgsize < phystop → n ∈ Finset.Ico 0x80020 0x80600 := by
    intro n hlow hhigh
    simp only [pgsize_eq, phystop] at hlow hhigh
    exact Finset.mem_Ico.mpr ⟨by omega, by omega⟩
  have hsub : m₀.free.toFinset ⊆ Finset.Ico 0x80020 0x80600 := by
    intro x hx
    have hx' := hm.managed x (List.mem_toFinset.mp hx)
    exact hrange x hx'.1 hx'.2
  have hcard := Finset.card_le_card hsub
  rwa [List.toFinset_card_of_nodup hn, Nat.card_Ico] at hcard

/-- The user pages of a process are few. -/
theorem Books.length_le (h : Books board m₀ (userPages us + R) m) (hm : Stocked board m₀) : us.length ≤ 0x5E0 := by
  have hl := h.length
  have hpages : (userPages us).card = us.length := by
    rw [userPages, Multiset.coe_card, List.length_map]
  rw [Multiset.card_add, hpages] at hl
  have := free_length_le hm
  omega

/-! ### Making and freeing the two tables -/

theorem trampolineVa_eq : trampolineVa = (2 ^ 26 - 1) * pgsize := by decide

theorem trapframeVa_eq : trapframeVa = (2 ^ 26 - 2) * pgsize := by decide

section Blank
variable {S : Finset (Fin 512)} (hrow : ∀ i ∈ S, m.heap p i = .empty)
include hrow

theorem pagesOf_blank : pagesOf m S p = {p} := by
  have hsum : ∑ i ∈ within S (1 + 1), below (within S) m.heap 1 (m.heap p i) = 0 := by
    apply Finset.sum_eq_zero
    intro i hi
    rw [hrow i hi, below_empty]
  rw [pagesOf_eq, nodes_succ, hsum]
  rfl

theorem Table.blank : Table S (fun _ => none) m p := by
  refine ⟨?_, fun v _ hS => find_empty (hrow _ hS)⟩
  rw [shape_succ]
  intro i hi
  rw [hrow i hi]
  trivial

theorem Holds.blank (hb : Books board m₀ ((p, .table) ::ₘ R) m) :
    Holds board m₀ S (fun _ => none) p R m ∧ ∀ v, px (v * pgsize) 2 ∈ S → missing m.heap 2 p (px (v * pgsize)) = 2 := by
  refine ⟨⟨Table.blank hrow, ?_⟩, fun v hS => missing_empty (hrow _ hS)⟩
  rw [pagesOf_blank hrow, tabs_singleton, Multiset.singleton_add]
  exact hb

end Blank

section Tables
variable {G : Label → Ram → Prop} {ok : Use → Prop} {E : Stop → Prop}
  (hm : Booted board m₀) (hG : Allows board m₀ G ok)
include hm hG

theorem ends_uvmcreate (hb : Books board m₀ R m) :
    uvmcreate.Ends G E m fun r m' => (r = none ∧ m' = m ∧ m.free = []) ∨
      ∃ q, r = some q ∧ Holds board m₀ Finset.univ (fun _ => none) q R m' ∧ Same R m m' ∧
        (∀ i, m'.heap q i = .empty) ∧ m'.free.length + 1 = m.free.length := by
  unfold uvmcreate
  apply ends_kalloc hm.stocked hG hb
  · exact fun hf => .inl ⟨rfl, rfl, hf⟩
  · intro q m₁ hf hb₁ hs₁
    obtain ⟨hb₂, hs₂⟩ := hb₁.write hm.stocked fun _ => 0
    have hrow := Ram.heap_zero _ (m₁.write_byte q fun _ => 0)
    obtain ⟨h, -⟩ := Holds.blank (S := Finset.univ) (fun i _ => hrow i) hb₂
    apply Prog.Ends.change (hG.plain _)
    refine .inr ⟨q, rfl, h, hs₁.trans hs₂, hrow, ?_⟩
    rw [hf]
    rfl

theorem ends_procPagetable (hok : ok .table) (htf : tf < 2 ^ 52) (hb : Books board m₀ R m) :
    (procPagetable board tf).Ends G E m fun r m' => Same R m m' ∧
      ((r = none ∧ Books board m₀ R m' ∧ m.free.length < 3) ∨
        ∃ u, r = some u ∧ Holds board m₀ Finset.univ (usrMap board tf []) u R m' ∧
          (∀ i ∈ usrIdx, m'.heap u i = .empty) ∧ m'.free.length + 3 = m.free.length) := by
  have htr : board.trampoline < 2 ^ 52 := lt_of_mul_lt_phystop hm.trampoline
  unfold procPagetable
  apply (ends_uvmcreate hm hG hb).bind
  intro r m₁ hr
  rcases hr with ⟨rfl, rfl, hf⟩ | ⟨u, rfl, h₁, hs₁, hrow₁, hlen₁⟩
  · refine ⟨Same.refl R m₁, .inl ⟨rfl, hb, ?_⟩⟩
    rw [hf]
    exact Nat.succ_pos 2
  · show Prog.Ends G E (mappages u trampolineVa pgsize board.trampoline (pteR ||| pteX) >>= _) m₁ _
    rw [trampolineVa_eq]
    apply (ends_mappages hm.stocked hG h₁ (by omega) (Finset.mem_univ _) rfl htr (by decide) (by decide)).bind
    intro r m₂ hr
    obtain ⟨hedit₂, hr⟩ := hr
    rw [missing_empty (hrow₁ _)] at hr
    rcases hr with ⟨rfl, h₂, -, hlen⟩ | ⟨rfl, h₂, hzero, hrow₂, hlen₂⟩
    · -- the page table is freed again
      have hsz : ¬(0 : Nat) > 0 := Nat.lt_irrefl 0
      simp only [Int.reduceNeg, Int.reduceLT, if_true, uvmfree, hsz, if_false]
      apply Prog.Ends.bind (R := fun _ m' => Books board m₀ R m' ∧ Same R m₂ m')
        (ends_freewalk hm.stocked hG hok h₂ fun _ _ => rfl)
      intro _ m₃ h₃
      exact ⟨(hs₁.trans hedit₂.same).trans h₃.2, .inl ⟨rfl, h₃.1, by omega⟩⟩
    · simp only [lt_irrefl, if_false]
      have hsame : missing m₂.heap 2 u (px ((2 ^ 26 - 2) * pgsize)) = 0 := by
        rw [← hzero]
        apply missing_path
        intro k hk hk'
        have h12 : k = 1 ∨ k = 2 := by omega
        rcases h12 with rfl | rfl
        · decide
        · decide
      rw [trapframeVa_eq]
      have hfree : Function.update (fun _ => none) (2 ^ 26 - 1) (some (⟨board.trampoline, (pteR ||| pteX) ||| pteV⟩ : Pte))
          (2 ^ 26 - 2) = none := rfl
      apply (ends_mappages hm.stocked hG h₂ (by omega) (Finset.mem_univ _) hfree htf (by decide) (by decide)).bind
      intro r m₃ hr
      obtain ⟨hedit₃, hr⟩ := hr
      rw [hsame] at hr
      rcases hr with ⟨-, -, -, hlen⟩ | ⟨rfl, h₃, -, hrow₃, hlen₃⟩
      · exact absurd hlen (Nat.not_lt_zero _)
      · simp only [lt_irrefl, if_false]
        have hrow : ∀ i ∈ usrIdx, m₃.heap u i = .empty := by
          intro i hi
          have h1 : px ((2 ^ 26 - 1) * pgsize) 2 ∉ usrIdx := by decide
          have h2 : px ((2 ^ 26 - 2) * pgsize) 2 ∉ usrIdx := by decide
          rw [hrow₃ i fun h => h2 (h ▸ hi), hrow₂ i fun h => h1 (h ▸ hi), hrow₁ i]
        refine ⟨(hs₁.trans hedit₂.same).trans hedit₃.same,
          .inr ⟨u, rfl, h₃.congr (fun v _ _ => ?_) rfl, hrow, by omega⟩⟩
        unfold usrMap
        rw [Function.update_apply, Function.update_apply]
        by_cases hlow : v < 2 ^ 19
        · rw [if_pos hlow, if_neg (by omega), if_neg (by omega)]
          rfl
        · rw [if_neg hlow]
          by_cases h1 : v = 2 ^ 26 - 1
          · rw [if_neg (by omega), if_pos h1, if_pos h1]
          · by_cases h2 : v = 2 ^ 26 - 2
            · rw [if_pos h2, if_neg h1, if_pos h2]
            · rw [if_neg h2, if_neg h1, if_neg h1, if_neg h2]

/-- The user page table, and the user pages, of a process whose size is `sz`. -/
theorem ends_procFreepagetable {sz : Nat} (hok : ok .table) (hok' : ok .user)
    (hround : npages sz = us.length) (hfew : us.length ≤ 2 ^ 19)
    (h : Holds board m₀ Finset.univ (usrMap board tf us) u (userPages us + R) m) :
    (procFreepagetable board u sz).Ends G E m fun _ m' => Books board m₀ R m' ∧ Same R m m' := by
  have hone : ∀ {v : Nat} {f : Nat → Option Pte} {m : Ram}, v + 1 ≤ 2 ^ 26 → (f v).isSome →
      Holds board m₀ Finset.univ f u (userPages us + R) m →
      (vmunmap board u (v * pgsize) 1 false).Ends G E m fun _ m' =>
        Holds board m₀ Finset.univ (erase f v 1) u (userPages us + R) m' ∧ Edit Finset.univ u (userPages us + R) m m' := by
    intro v f m hv hf h
    refine ends_vmunmap (u := .user) (d := false) hm.stocked hG 1 hv (fun _ _ _ => Finset.mem_univ _) (fun x hx hx' => ?_) nofun
      (h.rest ?_)
    · rw [show x = v by omega]
      exact hf
    · rw [if_neg (by decide), zero_add]
  unfold procFreepagetable
  rw [trampolineVa_eq, trapframeVa_eq]
  apply (hone (by omega) rfl h).bind
  intro _ m₁ h₁
  obtain ⟨h₁, hedit₁⟩ := h₁
  apply (hone (by omega) rfl h₁).bind
  intro _ m₂ h₂
  obtain ⟨h₂, hedit₂⟩ := h₂
  have hs₂ : Same R m m₂ := (hedit₁.trans hedit₂).same.right
  -- only the user pages are left
  have hlow : ∀ v, erase (erase (usrMap board tf us) (2 ^ 26 - 1) 1) (2 ^ 26 - 2) 1 v =
      if v < 2 ^ 19 then us[v]? else none := by
    intro v
    unfold erase usrMap
    by_cases hv : v < 2 ^ 19
    · rw [if_neg (by omega), if_neg (by omega)]
      simp only [hv, if_true]
    · by_cases h2 : v = 2 ^ 26 - 2
      · rw [if_pos (by omega), if_neg hv]
      · by_cases h1 : v = 2 ^ 26 - 1
        · rw [if_neg (by omega), if_pos (by omega), if_neg hv]
        · rw [if_neg (by omega), if_neg (by omega)]
          simp only [hv, h1, h2, if_false]
  have h₃ := h₂.congr (fun v _ _ => hlow v) rfl
  unfold uvmfree
  by_cases hz : sz > 0
  · have hn : pgroundup sz / pgsize = us.length := by
      rw [pgroundup_eq hround hfew]
      exact Nat.mul_div_cancel _ (by decide)
    simp only [hz, if_true, hn]
    have hmap : mapped (fun v => if v < 2 ^ 19 then us[v]? else none) .user 0 us.length = userPages us := by
      apply mapped_eq_userPages
      intro i hi
      rw [Nat.zero_add, if_pos (by omega)]
    have hunmap : (vmunmap board u (0 * pgsize) us.length true).Ends G E m₂ _ := ends_vmunmap (u := .user)
      (R := R) (S := Finset.univ) hm.stocked hG us.length (by omega)
      (fun _ _ _ => Finset.mem_univ _) (f := fun v => if v < 2 ^ 19 then us[v]? else none) (fun x _ hx => ?_) (fun _ => hok')
      (h₃.rest (by rw [if_pos rfl, hmap]))
    · rw [Nat.zero_mul] at hunmap
      apply hunmap.bind
      intro _ m₃ h₄
      obtain ⟨h₄, hedit₃⟩ := h₄
      refine (ends_freewalk hm.stocked hG hok h₄ fun v _ => ?_).imp fun _ m' h => ⟨h.1, (hs₂.trans hedit₃.same).trans h.2⟩
      unfold erase
      by_cases hv : v < us.length
      · rw [if_pos (by omega)]
      · rw [if_neg (by omega)]
        show (if v < 2 ^ 19 then us[v]? else none) = none
        rw [List.getElem?_eq_none (by omega), ite_self]
    · rw [if_pos (by omega), List.getElem?_eq_getElem (by omega)]
      rfl
  · have hus : us = [] := by
      rw [show sz = 0 by omega] at hround
      exact List.length_eq_zero_iff.mp hround.symm
    simp only [hz, if_false, Prog.pure_eq, Prog.ret_bind]
    subst hus
    refine (ends_freewalk hm.stocked hG hok (h₃.rest (by rw [userPages_nil, zero_add])) fun v _ => ?_).imp
      fun _ m' h => ⟨h.1, hs₂.trans h.2⟩
    rw [List.getElem?_nil, ite_self]

omit hm hG in
/-- The kernel page table of a process cannot be freed with a kernel stack that is not
mapped. -/
theorem ends_kvmfree_unmapped (hG : Allows board m₀ (fun l => G l.teared) ok) (h : Table procIdx f m k)
    (hnode : node? m.heap 2 k (px (0x3EC0000 * pgsize)) = none) (hE : E (.panic "vmunmap: walk")) :
    (kvmfree board k true).Ends G E m fun _ _ => False := by
  have hidx : px (0x3EC0000 * pgsize) 2 ∈ procIdx := Finset.mem_insert_self _ _
  have hstack : (kvmfreeStack board k).Ends (fun l => G l.teared) E m fun _ _ => False := by
    unfold kvmfreeStack
    rw [vkstack_eq]
    apply (ends_vmunmap_none hG h (by omega) hidx hnode hE).bind
    exact fun _ _ hfalse => hfalse.elim
  apply Prog.Ends.relabel
  apply hstack.bind
  exact fun _ _ hfalse => hfalse.elim

theorem ends_procKpagetable {ok' : Use → Prop} (hG' : Allows board m₀ (fun l => G l.teared) ok')
    (hb : Books board m₀ R m) (hE : 0 < m.free.length → m.free.length < 4 → E (.panic "vmunmap: walk")) :
    (procKpagetable board).Ends G E m fun r m' => Same R m m' ∧
      ((r = none ∧ m' = m ∧ m.free = []) ∨
        ∃ k stack, r = some k ∧ Holds board m₀ procIdx (kernMap (some stack) []) k ((stack, .stack) ::ₘ R) m' ∧
          (∀ j, j ∉ procIdx → m'.heap k j = m₀.heap board.kernelPagetable j) ∧ (∀ i ∈ usrIdx, m'.heap k i = .empty) ∧
          m'.free.length + 4 = m.free.length) := by
  have hidx : px (0x3EC0000 * pgsize) 2 ∈ procIdx := Finset.mem_insert_self _ _
  have hroot : board.kernelPagetable ∈ bootPages board m₀ := root_mem_pagesOf _ _ _
  unfold procKpagetable
  apply ends_kalloc hm.stocked hG hb
  · exact fun hf => ⟨Same.refl R m, .inl ⟨rfl, rfl, hf⟩⟩
  · intro k m₁ hf₁ hb₁ hs₁
    have hlen₁ : m.free.length = m₁.free.length + 1 := by
      rw [hf₁]
      rfl
    apply Prog.Ends.change (hG.plain _)
    obtain ⟨hb₂, hs₂⟩ := hb₁.write hm.stocked (m₁.byte board.kernelPagetable)
    -- the root is a copy of the boot's
    have hrow : (m₁.write k (m₁.byte board.kernelPagetable)).heap k = m₀.heap board.kernelPagetable := by
      funext i
      simp only [Ram.heap, Ram.pte, Ram.write_byte, hb₁.boot _ hroot]
    obtain ⟨h₂, hmissing⟩ := Holds.blank (S := procIdx) (fun i hi => by rw [hrow]; exact hm.private_empty i hi) hb₂
    have hnone : node? (m₁.write k (m₁.byte board.kernelPagetable)).heap 2 k (px (0x3EC0000 * pgsize)) = none := by
      rw [← Option.not_isSome_iff_eq_none, node?_isSome_iff, hmissing _ hidx]
      decide
    apply ends_kalloc hm.stocked hG h₂.books
    · intro hf
      refine Prog.Ends.bind (ends_kvmfree_unmapped hG' h₂.table hnone (hE ?_ ?_)) fun _ _ hfalse => hfalse.elim
      · omega
      · have hf' : m₁.free = [] := hf
        rw [hlen₁, hf']
        decide
    · intro stack m₃ hf₃ hb₃ hs₃
      have hlen₃ : m₁.free.length = m₃.free.length + 1 := congrArg List.length hf₃
      have hlt : stack < 2 ^ 52 := (hb₃.managed hm.stocked (Multiset.mem_cons_self _ _)).lt
      have htab : Table procIdx (fun _ => none) m₃ k := h₂.table.same hs₃.left
      have h₃ : Holds board m₀ procIdx (fun _ => none) k ((stack, .stack) ::ₘ R) m₃ := by
        refine ⟨htab, hb₃.congr ?_⟩
        rw [hs₃.left.pagesOf, Multiset.add_cons]
      have hheap : m₃.heap k = m₀.heap board.kernelPagetable := by
        rw [hs₃.left.tabs_heap (root_mem_pagesOf _ _ _), hrow]
      have hmissing₃ : missing m₃.heap 2 k (px (0x3EC0000 * pgsize)) = 2 :=
        missing_empty (by rw [hheap]; exact hm.private_empty _ hidx)
      rw [vkstack_eq]
      apply (ends_mappages hm.stocked hG h₃ (by omega) hidx rfl hlt (by decide) (by decide)).bind
      intro r m₄ hr
      obtain ⟨hedit, hr⟩ := hr
      rw [hmissing₃] at hr
      rcases hr with ⟨rfl, h₄, hnode, hlen⟩ | ⟨rfl, h₄, -, hrow₄, hlen⟩
      · refine Prog.Ends.bind (ends_kvmfree_unmapped hG' h₄.table hnode (hE ?_ ?_)) fun _ _ hfalse => hfalse.elim
        · omega
        · omega
      · refine ⟨((hs₁.trans hs₂).trans hs₃.right).trans hedit.same.tail, .inr ⟨k, stack, rfl, h₄.congr (fun v _ _ => ?_) rfl,
          fun j hj => ?_, fun i hi => ?_, by omega⟩⟩
        · unfold kernMap
          rw [Function.update_apply]
          by_cases hv : v = 0x3EC0000
          · rw [if_pos hv, if_neg (by omega), if_pos hv]
            rfl
          · rw [if_neg hv, if_neg hv, List.getElem?_nil, Option.map_none, ite_self]
        · rw [hedit.row j hj, hheap]
        · have hnot : px (0x3EC0000 * pgsize) 2 ∉ usrIdx := by decide
          rw [hrow₄ i fun h => hnot (h ▸ hi), hheap]
          exact hm.private_empty i (Finset.mem_insert_of_mem hi)

end Tables
end Farron.Memory
