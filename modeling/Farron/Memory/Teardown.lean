import Farron.Memory.Tables
import Mathlib.Algebra.BigOperators.Fin

/-! Freeing page tables.

`freewalk` and `kfreewalk` free the pages of a tree and nothing else: each page's loop frees
what is under its entries, one entry after the other (`ends_freeTables`), and the induction on
the height of the tree does the rest. A process's kernel page table is freed through those
entries of its root that it does not share with the boot's page table. -/
namespace Farron.Memory
open Resumption Radix

variable {board : Board} {m₀ m m' : Ram} {R : Multiset (Page × Use)} {p : Page} {l : Nat}

theorem nodup_indices : indices.Nodup := by
  unfold indices
  exact List.nodup_finRange 512

theorem sum_indices (f : Fin 512 → Multiset Page) : (indices.map f).sum = ∑ i, f i := by
  unfold indices
  exact (Fin.sum_univ_def f).symm

section Loop
variable {S : Nat → Finset (Fin 512)} {G : Label → Ram → Prop} {ok : Use → Prop} {E : Stop → Prop}
  (hm : Stocked board m₀) (hG : Allows board m₀ G ok) {leaf : Vm Unit → Vm Unit} {child : Page → Vm Unit}
include hG

/-- A page without page tables: the loop changes nothing, unless a leaf does. -/
theorem ends_freeTables_none (is : List (Fin 512)) (ht : ∀ i ∈ is, ∀ q, m.heap p i ≠ .table q)
    (hleaf : (∀ k, leaf k = pure ()) ∨ ∀ i ∈ is, ∀ e, m.heap p i ≠ .leaf e) :
    (freeTables leaf child p is).Ends G E m fun _ m' => m' = m := by
  induction is with
  | nil => rfl
  | cons i is ih =>
    have hrest := ih (fun j hj => ht j (List.mem_cons_of_mem i hj))
      (hleaf.imp id fun h j hj => h j (List.mem_cons_of_mem i hj))
    unfold freeTables
    apply ends_loadPte hG
    cases he : m.heap p i with
    | empty =>
      simp only [entry_empty.mp he, Bool.false_and, Bool.false_eq_true, if_false]
      exact hrest
    | table q => exact absurd he (ht i List.mem_cons_self q)
    | leaf e =>
      obtain ⟨hv, hl, -⟩ := entry_leaf he
      simp only [hv, hl, Bool.not_true, Bool.and_false, Bool.false_eq_true, if_false, if_true]
      rcases hleaf with hk | hno
      · rw [hk]
        rfl
      · exact absurd he (hno i List.mem_cons_self e)

include hm

/-- A page above the last level: the loop frees what is under the entries. -/
theorem ends_freeTables (is : List (Fin 512)) (hn : is.Nodup) (hfit : ∀ i ∈ is, Fits S m.heap l (m.heap p i))
    (hchild : ∀ i ∈ is, ∀ q R m', m.heap p i = .table q → (∀ x ∈ nodes S m.heap l q, m'.heap x = m.heap x) →
      Books board m₀ (tabs (nodes S m.heap l q) + R) m' →
      (child q).Ends G E m' fun _ m'' => Books board m₀ R m'' ∧ Same R m' m'')
    (hb : Books board m₀ ((p, .table) ::ₘ (tabs (is.map fun i => below S m.heap l (m.heap p i)).sum + R)) m) :
    (freeTables leaf child p is).Ends G E m fun _ m' => Books board m₀ ((p, .table) ::ₘ R) m' ∧ Same R m m' := by
  induction is generalizing m with
  | nil =>
    refine ⟨hb.congr ?_, Same.refl R m⟩
    rw [List.map_nil, List.sum_nil, tabs_zero, zero_add]
  | cons i is ih =>
    have hni := (List.nodup_cons.mp hn).1
    unfold freeTables
    apply ends_loadPte hG
    rw [List.map_cons, List.sum_cons, tabs_add] at hb
    cases he : m.heap p i with
    | empty =>
      simp only [entry_empty.mp he, Bool.false_and, Bool.false_eq_true, if_false]
      refine ih (List.nodup_cons.mp hn).2 (fun j hj => hfit j (List.mem_cons_of_mem i hj))
        (fun j hj => hchild j (List.mem_cons_of_mem i hj)) (hb.congr ?_)
      rw [he, below_empty, tabs_zero, zero_add]
    | leaf e => exact absurd (hfit i List.mem_cons_self) (by rw [he]; exact id)
    | table q =>
      obtain ⟨hv, hl, hq⟩ := entry_table he
      simp only [hv, hl, hq, Bool.not_false, Bool.and_true, if_true]
      rw [he, below_table] at hb
      have hb' : Books board m₀ (tabs (nodes S m.heap l q) +
          ((p, .table) ::ₘ (tabs (is.map fun i => below S m.heap l (m.heap p i)).sum + R))) m := by
        refine hb.congr ?_
        rw [Multiset.add_cons, add_assoc]
      apply (hchild i List.mem_cons_self q _ m he (fun _ _ => rfl) hb').bind
      intro _ m₁ h₁
      obtain ⟨hb₁, hs₁⟩ := h₁
      apply ends_storePte hG
      obtain ⟨hb₂, hs₂⟩ := hb₁.write hm (putWord64 (8 * i) 0 (m₁.byte p))
      have hsame : Same (tabs (is.map fun i => below S m.heap l (m.heap p i)).sum + R) m (m₁.setPte p i 0) :=
        hs₁.tail.trans hs₂
      -- the remaining entries, and the pages under them, are as before
      have hrow : ∀ j ∈ is, (m₁.setPte p i 0).heap p j = m.heap p j := by
        intro j hj
        have hji : j ≠ i := fun h => hni (h ▸ hj)
        rw [m₁.heap_setPte p i (by decide), Function.update_of_ne hji, hs₁.heap (Multiset.mem_cons_self _ _)]
      have hpages : ∀ j ∈ is, ∀ x ∈ below S m.heap l (m.heap p j), (m₁.setPte p i 0).heap x = m.heap x := by
        intro j hj x hx
        apply hsame.left.tabs_heap
        obtain ⟨N, hN⟩ := List.mem_iff_append.mp (List.mem_map_of_mem (f := fun i => below S m.heap l (m.heap p i)) hj)
        obtain ⟨N', hN⟩ := hN
        rw [hN, List.sum_append, List.sum_cons]
        exact Multiset.mem_add.mpr (.inr (Multiset.mem_add.mpr (.inl hx)))
      have hbelow : ∀ j ∈ is, below S (m₁.setPte p i 0).heap l ((m₁.setPte p i 0).heap p j) =
          below S m.heap l (m.heap p j) := by
        intro j hj
        rw [hrow j hj]
        exact below_congr l (fun _ => nodes_congr) (hpages j hj)
      refine (ih (List.nodup_cons.mp hn).2 ?_ ?_ ?_).imp fun _ m' h' => ⟨h'.1, hsame.right.trans h'.2⟩
      · intro j hj
        rw [hrow j hj]
        have hfj := hfit j (List.mem_cons_of_mem i hj)
        cases hej : m.heap p j with
        | empty => trivial
        | leaf e => exact absurd hfj (by rw [hej]; exact id)
        | table r =>
          rw [hej] at hfj
          exact Shape.congr hfj fun x hx => hpages j hj x (by rw [hej]; exact hx)
      · intro j hj r R' m' hr hsame' hbooks
        rw [hrow j hj] at hr
        have hnode : ∀ x ∈ nodes S m.heap l r, (m₁.setPte p i 0).heap x = m.heap x := by
          intro x hx
          exact hpages j hj x (by rw [hr]; exact hx)
        have heq : nodes S (m₁.setPte p i 0).heap l r = nodes S m.heap l r := nodes_congr hnode
        rw [heq] at hsame' hbooks
        exact hchild j (List.mem_cons_of_mem i hj) r R' m' hr
          (fun x hx => (hsame' x hx).trans (hnode x hx)) hbooks
      · refine hb₂.congr ?_
        rw [List.map_congr_left hbelow]

/-- A tree without leaves, or one whose leaves are passed over. -/
theorem ends_freeTree (hok : ok .table) (hS : ∀ k, k ≤ l → S k = Finset.univ) (hs : Shape S m.heap l p)
    (hleaf : (∀ k, leaf k = pure ()) ∨ ∀ b, find m.heap l p b = none)
    (hb : Books board m₀ (tabs (nodes S m.heap l p) + R) m) :
    (freeTree board leaf (l + 1) p).Ends G E m fun _ m' => Books board m₀ R m' ∧ Same R m m' := by
  induction l generalizing p m R with
  | zero =>
    have hnone : (∀ k, leaf k = pure ()) ∨ ∀ i ∈ indices, ∀ e, m.heap p i ≠ .leaf e := by
      refine hleaf.imp id fun hfind i _ e he => ?_
      have hf := hfind fun _ => i
      rw [find_zero, he] at hf
      cases hf
    rw [freeTree_succ]
    apply (ends_freeTables_none hG indices (fun i _ => hs i) hnone).bind
    intro _ m' hm'
    rw [hm']
    rw [nodes_zero, tabs_singleton, Multiset.singleton_add] at hb
    exact (ends_kfree hm hG hb hok).imp fun _ m' h => ⟨h.1, h.2.1⟩
  | succ l ih =>
    have hSl : ∀ k, k ≤ l → S k = Finset.univ := fun k hk => hS k (Nat.le_succ_of_le hk)
    have hfit : ∀ i, Fits S m.heap l (m.heap p i) := fun i =>
      (shape_succ l p).mp hs i (by rw [hS (l + 1) (Nat.le_refl _)]; exact Finset.mem_univ i)
    rw [freeTree_succ]
    have hloop : (freeTables leaf (freeTree board leaf (l + 1)) p indices).Ends G E m fun _ m' =>
        Books board m₀ ((p, .table) ::ₘ R) m' ∧ Same R m m' := by
      apply ends_freeTables hm hG indices nodup_indices fun i _ => hfit i
      · intro i _ q R' m' hq hsame hb'
        have hq' := hfit i
        rw [hq] at hq'
        have hnodes : nodes S m'.heap l q = nodes S m.heap l q := nodes_congr hsame
        refine ih hSl (Shape.congr hq' hsame) (hleaf.imp id fun hfind b => ?_) (by rw [hnodes]; exact hb')
        have hpath : ∀ k, k ≤ l → b k ∈ S k := by
          intro k hk
          rw [hSl k hk]
          exact Finset.mem_univ _
        rw [find_congr hpath hsame]
        have hf := hfind fun k => if k ≤ l then b k else i
        have hlast : m.heap p (if l + 1 ≤ l then b (l + 1) else i) = .table q := by
          rw [if_neg (by omega)]
          exact hq
        rw [find_table hlast] at hf
        rw [← hf]
        exact find_path _ _ _ fun k hk => (if_pos hk).symm
      · refine hb.congr ?_
        rw [nodes_succ, hS (l + 1) (Nat.le_refl _), tabs_cons, sum_indices, Multiset.cons_add]
    apply hloop.bind
    intro _ m' hm'
    exact (ends_kfree hm hG hm'.1 hok).imp fun _ m'' h => ⟨h.1, hm'.2.trans h.2.1⟩

end Loop

/-! ### The two page tables of a process -/

theorem Table.mono {S S' : Finset (Fin 512)} {f : Nat → Option Pte} {root : Page} (h : Table S f m root) (hS : S' ⊆ S) :
    Table S' f m root := by
  refine ⟨h.shape.indices fun k _ => ?_, fun v hv hx => h.maps v hv (hS hx)⟩
  unfold within
  split
  · exact hS
  · exact Finset.Subset.refl _

/-- The pages of the part of a kernel page table that maps the kernel stack. -/
def stackPages (m : Ram) (kpt : Page) : Multiset Page := below (within usrIdx) m.heap 1 (m.heap kpt stackIdx)

theorem pagesOf_procIdx (m : Ram) (kpt : Page) : pagesOf m procIdx kpt = stackPages m kpt + pagesOf m usrIdx kpt := by
  have hnot : stackIdx ∉ usrIdx := by decide
  have hlow : ∀ e, below (within procIdx) m.heap 1 e = below (within usrIdx) m.heap 1 e := by
    intro e
    apply below_indices
    intro k hk
    unfold within
    rw [if_neg (by omega), if_neg (by omega)]
  have hproc : within procIdx (1 + 1) = insert stackIdx usrIdx := rfl
  have husr : within usrIdx (1 + 1) = usrIdx := rfl
  rw [pagesOf_eq, pagesOf_eq, nodes_succ, nodes_succ, hproc, husr, Finset.sum_insert hnot, stackPages, Multiset.add_cons]
  simp only [hlow]

theorem usr_indices : indices.take (px maxuva 2) = [0, 1] := by
  have hpx : (px maxuva 2 : Nat) = 2 := by decide
  have htwo : List.finRange (510 + 1 + 1) = 0 :: 1 :: ((List.finRange 510).map Fin.succ).map Fin.succ := by
    rw [List.finRange_succ, List.finRange_succ, List.map_cons]
    rfl
  unfold indices
  rw [hpx, htwo, List.take_succ_cons, List.take_succ_cons, List.take_zero]

theorem vkstack_eq : vkstack = 0x3EC0000 * pgsize := by decide

section Ends
variable {S : Finset (Fin 512)} {f : Nat → Option Pte} {root kpt : Page} {G : Label → Ram → Prop} {ok : Use → Prop} {E : Stop → Prop}
  (hm : Stocked board m₀)
include hm

/-- An emptied page table is freed. -/
theorem ends_freewalk (hG : Allows board m₀ G ok) (hok : ok .table) (h : Holds board m₀ Finset.univ f root R m)
    (hf : ∀ v, v < 2 ^ 27 → f v = none) :
    (freewalk board 3 root).Ends G E m fun _ m' => Books board m₀ R m' ∧ Same R m m' := by
  have hb := h.books
  rw [pagesOf_eq] at hb
  refine ends_freeTree hm hG hok (fun k _ => ?_) h.table.shape (.inr fun b => ?_) hb
  · unfold within
    exact ite_self _
  · obtain ⟨v, hv, hvb⟩ := exists_px b
    rw [find_path m.heap 2 root fun k hk => (hvb k hk).symm, h.table.maps v hv (Finset.mem_univ _), hf v hv]

/-- What a process's kernel page table maps of user addresses is freed with its root. -/
theorem ends_kvmfreeusr (hG : Allows board m₀ G ok) (hok : ok .table) (hs : Shape (within usrIdx) m.heap 2 kpt)
    (hb : Books board m₀ (tabs (pagesOf m usrIdx kpt) + R) m) :
    (kvmfreeusr board kpt >>= fun _ => kfree board kpt).Ends G E m fun _ m' => Books board m₀ R m' ∧ Same R m m' := by
  have hfit : ∀ i ∈ [(0 : Fin 512), 1], Fits (within usrIdx) m.heap 1 (m.heap kpt i) := by
    intro i hi
    refine (shape_succ 1 kpt).mp hs i ?_
    show i ∈ usrIdx
    simpa [usrIdx] using hi
  have hlow : ∀ k, k ≤ 1 → within usrIdx k = Finset.univ := by
    intro k hk
    unfold within
    exact if_neg (by omega)
  have hsum : pagesOf m usrIdx kpt = kpt ::ₘ ([(0 : Fin 512), 1].map fun i => below (within usrIdx) m.heap 1 (m.heap kpt i)).sum := by
    have husr : within usrIdx (1 + 1) = {0, 1} := rfl
    rw [pagesOf_eq, nodes_succ, husr, Finset.sum_pair (by decide), List.map_cons, List.map_cons, List.map_nil, List.sum_cons,
      List.sum_cons, List.sum_nil, add_zero]
  unfold kvmfreeusr
  rw [usr_indices]
  have hloop : (freeTables (fun rest => rest) (kfreewalk board 2) kpt [0, 1]).Ends G E m fun _ m' =>
      Books board m₀ ((kpt, .table) ::ₘ R) m' ∧ Same R m m' := by
    apply ends_freeTables hm hG [0, 1] (by decide) hfit
    · intro i hi q R' m' hq hsame hb'
      have hshape := hfit i hi
      rw [hq] at hshape
      have hnodes : nodes (within usrIdx) m'.heap 1 q = nodes (within usrIdx) m.heap 1 q := nodes_congr hsame
      exact ends_freeTree hm hG hok hlow (Shape.congr hshape hsame) (.inl fun _ => rfl) (by rw [hnodes]; exact hb')
    · refine hb.congr ?_
      rw [hsum, tabs_cons, Multiset.cons_add]
  apply hloop.bind
  intro _ m' hm'
  exact (ends_kfree hm hG hm'.1 hok).imp fun _ m'' h => ⟨h.1, hm'.2.trans h.2.1⟩

variable (hG : Allows board m₀ (fun l => G l.teared) ok)
include hG

theorem ends_kvmfree_false (hok : ok .table) (hs : Shape (within usrIdx) m.heap 2 kpt)
    (hb : Books board m₀ (tabs (pagesOf m usrIdx kpt) + R) m) :
    (kvmfree board kpt false).Ends G E m fun _ m' => Books board m₀ R m' ∧ Same R m m' :=
  Prog.Ends.relabel (ends_kvmfreeusr hm hG hok hs hb)

/-- The kernel stack and what maps it are freed as well. -/
theorem ends_kvmfree_true {stack : Page} {fl : Nat} (hok : ok .table) (hok' : ok .stack)
    (h : Holds board m₀ procIdx f kpt ((stack, .stack) ::ₘ R) m) (hf : f 0x3EC0000 = some ⟨stack, fl⟩) :
    (kvmfree board kpt true).Ends G E m fun _ m' => Books board m₀ R m' ∧ Same R m m' := by
  have hidx : px (0x3EC0000 * pgsize) 2 ∈ procIdx := Finset.mem_insert_self _ _
  apply Prog.Ends.relabel
  have hunmap : (vmunmap board kpt vkstack 1 true).Ends (fun l => G l.teared) E m fun _ m' =>
      Holds board m₀ procIdx (erase f 0x3EC0000 1) kpt R m' ∧ Edit procIdx kpt R m m' := by
    rw [vkstack_eq]
    refine ends_vmunmap hm hG 1 (by omega) (fun x hx hx' => ?_) (fun x hx hx' => ?_) (fun _ => hok') (h.rest ?_)
    · rw [show x = 0x3EC0000 by omega]
      exact hidx
    · rw [show x = 0x3EC0000 by omega, hf]
      rfl
    · rw [if_pos rfl, mapped_succ hf, mapped_zero, Multiset.cons_add, zero_add]
  have hstack : (kvmfreeStack board kpt).Ends (fun l => G l.teared) E m fun _ m' =>
      Shape (within usrIdx) m'.heap 2 kpt ∧ Books board m₀ (tabs (pagesOf m' usrIdx kpt) + R) m' ∧ Same R m m' := by
    unfold kvmfreeStack
    apply hunmap.bind
    intro _ m₁ h₁
    obtain ⟨h₁, hedit⟩ := h₁
    have husr := h₁.table.mono (Finset.subset_insert stackIdx usrIdx)
    have hb₁ := h₁.books
    rw [pagesOf_procIdx, tabs_add, add_assoc] at hb₁
    apply ends_loadPte hG
    rcases pte_of_shape h₁.table.shape (Finset.mem_insert_self stackIdx usrIdx) with ⟨hv, he⟩ | ⟨hv, hl, he⟩
    · have hv' : isValid (m₁.pte kpt (px vkstack 2)) = false := hv
      simp only [hv', Bool.false_and, Bool.false_eq_true, if_false]
      refine ⟨husr.shape, hb₁.congr ?_, hedit.same⟩
      rw [stackPages, he, below_empty, tabs_zero, zero_add]
    · have hv' : isValid (m₁.pte kpt (px vkstack 2)) = true := hv
      have hl' : isLeaf (m₁.pte kpt (px vkstack 2)) = false := hl
      simp only [hv', hl', Bool.not_false, Bool.and_true, if_true]
      rw [stackPages, he, below_table] at hb₁
      have hfit := (shape_succ 1 kpt).mp h₁.table.shape stackIdx (Finset.mem_insert_self stackIdx usrIdx)
      rw [he] at hfit
      have hlow : ∀ k, k ≤ 1 → within usrIdx k = Finset.univ := by
        intro k hk
        unfold within
        exact if_neg (by omega)
      have hshape : Shape (within usrIdx) m₁.heap 1 (pte2pa (m₁.pte kpt stackIdx)) := by
        refine Shape.indices hfit fun k hk => ?_
        unfold within
        rw [if_neg (by omega), if_neg (by omega)]
      refine (ends_freeTree hm hG hok hlow hshape (.inl fun _ => rfl) hb₁).imp fun _ m₂ h₂ => ?_
      obtain ⟨hb₂, hs₂⟩ := h₂
      have husr₂ := husr.same hs₂.left
      refine ⟨husr₂.shape, ?_, hedit.same.trans hs₂.right⟩
      rw [hs₂.left.pagesOf]
      exact hb₂
  apply hstack.bind
  intro _ m₁ h₁
  obtain ⟨hs₁, hb₁, hsame⟩ := h₁
  exact (ends_kvmfreeusr hm hG hok hs₁ hb₁).imp fun _ m' h => ⟨h.1, hsame.trans h.2⟩

end Ends
end Farron.Memory
