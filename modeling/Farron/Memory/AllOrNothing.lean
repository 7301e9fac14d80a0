import Farron.Memory.Resize

/-! Growing and copying an address space, when memory may run out at any point.

Neither `uvmalloc` nor `uvmcopy` leaves anything half done, whatever is on the free list when it
is called: both page tables map what they have mapped before and the pages taken are free again,
or every page is there. -/
namespace Farron.Memory
open Resumption Radix

variable {board : Board} {m₀ m m' : Ram} {R R' : Multiset (Page × Use)} {K : Finset (Fin 512)}
  {f g : Nat → Option Pte} {u k p : Page} {new : List Pte}

/-- Every page that was free is free again, or is now a page-table page of one of the two tables. -/
def Returned (K : Finset (Fin 512)) (u k : Page) (m m' : Ram) : Prop :=
  ∀ p ∈ m.free, p ∈ m'.free ∨ p ∈ pagesOf m' Finset.univ u ∨ p ∈ pagesOf m' K k

theorem fst_mem_tabs {N : Multiset Page} (h : p ∈ (tabs N).map Prod.fst) : p ∈ N := by
  obtain ⟨x, hx, rfl⟩ := Multiset.mem_map.mp h
  exact (mem_tabs.mp hx).1

theorem Pair.returned (hm : Stocked board m₀) (h : Pair board m₀ K f g u k R m) (h' : Pair board m₀ K f g u k R m') :
    Returned K u k m m' := by
  intro p hp
  have hstock : p ∈ (m₀.free : Multiset Page) := by
    rw [← h.books.pages]
    exact Multiset.mem_add.mpr (.inr hp)
  rw [← h'.books.pages, Multiset.map_add, Multiset.map_add] at hstock
  rcases Multiset.mem_add.mp hstock with hown | hfree
  · rcases Multiset.mem_add.mp hown with hu | hown
    · exact .inr (.inl (fst_mem_tabs hu))
    · rcases Multiset.mem_add.mp hown with hk | hR
      · exact .inr (.inr (fst_mem_tabs hk))
      · -- what the caller has was not free
        obtain ⟨x, hx, rfl⟩ := Multiset.mem_map.mp hR
        have hx : x ∈ tabs (pagesOf m Finset.univ u) + (tabs (pagesOf m K k) + R) :=
          Multiset.mem_add.mpr (.inr (Multiset.mem_add.mpr (.inr hx)))
        exact absurd hp (h.books.not_free hm hx)
  · exact .inl hfree

/-- The user pages of the books are pairwise different, and different from the rest. -/
theorem Books.distinct (hm : Stocked board m₀) (h : Books board m₀ (userPages new + R) m) :
    (new.map Pte.page).Nodup ∧ ∀ e ∈ new, ∀ x ∈ R, e.page ≠ x.1 := by
  refine ⟨?_, fun e he x hx => h.disjoint hm (mem_userPages he) hx⟩
  have hn := (Multiset.nodup_add.mp (h.nodup hm)).1
  rw [Multiset.map_add, Multiset.nodup_add, userPages, Multiset.map_coe, List.map_map] at hn
  exact Multiset.coe_nodup.mp hn.1

theorem Pair.distinct (hm : Stocked board m₀) (h : Pair board m₀ K f g u k (userPages new + R) m) :
    (new.map Pte.page).Nodup ∧ ∀ e ∈ new, ∀ x ∈ R, e.page ≠ x.1 := by
  have hb : Books board m₀ (userPages new + (R + (tabs (pagesOf m Finset.univ u) + tabs (pagesOf m K k)))) m := by
    refine h.books.congr ?_
    abel
  obtain ⟨hn, hd⟩ := hb.distinct hm
  exact ⟨hn, fun e he x hx => hd e he x (Multiset.mem_add.mpr (.inl hx))⟩

/-- What `uvmcopy` is to make of the pages of a parent. -/
def copyOf (F : Nat → Option Pte) (m : Ram) (v : Nat) : Nat × (Nat → Byte) :=
  (F v).elim (0, fun _ => 0) fun e => (e.flags, m.byte e.page)

theorem resize_allOrNothing (hm : Stocked board m₀) (hK : usrIdx ⊆ K) (h : Pair board m₀ K f g u k R m) :
    (∀ oldsz newsz, oldsz ≤ newsz → newsz < maxuva → NoUser f (npages oldsz) → NoUser g (npages oldsz) →
      ∃ r m', (uvmalloc board u k oldsz newsz).run m = .done r m' ∧ Edit K k R m m' ∧
        ((r = 0 ∧ Pair board m₀ K f g u k R m' ∧ Returned K u k m m' ∧
            m.free.length < 5 * (npages newsz - npages oldsz)) ∨
          (r = newsz ∧ ∃ new, new.length = npages newsz - npages oldsz ∧
            Pair board m₀ K (mapAll f (npages oldsz) new) (mapAll g (npages oldsz) (new.map Pte.kern)) u k
              (userPages new + R) m' ∧
            ∀ e ∈ new, e.flags = pteW ||| pteX ||| pteR ||| pteU ||| pteV ∧ m'.byte e.page = fun _ => 0))) ∧
    (∀ old F sz, Table Finset.univ F m old → tabs (pagesOf m Finset.univ old) ≤ R →
      (∀ v, v < npages sz → ∃ e x, F v = some e ∧ (e.page, x) ∈ R) → NoUser f 0 → NoUser g 0 →
      ∃ r m', (uvmcopy board old u k sz).run m = .done r m' ∧ Edit K k R m m' ∧
        ((r = -1 ∧ Pair board m₀ K f g u k R m' ∧ Returned K u k m m' ∧ m.free.length < 5 * npages sz) ∨
          (r = 0 ∧ ∃ new, new.length = npages sz ∧
            Pair board m₀ K (mapAll f 0 new) (mapAll g 0 (new.map Pte.kern)) u k (userPages new + R) m' ∧
            (new.map Pte.page).Nodup ∧
            ∀ v e e', new[v]? = some e → F v = some e' →
              e.flags = e'.flags ∧ m'.byte e.page = m'.byte e'.page ∧ e.page ≠ e'.page))) := by
  have hG := sound_allows hm
  refine ⟨?_, ?_⟩
  · intro oldsz newsz hle hlt hf hg
    have hends := ends_uvmalloc (E := fun _ => False) hm hG trivial hK hf hg rfl hle hlt h
    obtain ⟨r, m', hrun, hedit, hr⟩ := hends.returns
    refine ⟨r, m', hrun, hedit, ?_⟩
    rcases hr with ⟨hr, hback, hfree⟩ | ⟨hr, new, hlen, hall⟩
    · exact .inl ⟨hr, hback, h.returned hm hback, hfree⟩
    · refine .inr ⟨hr, new, hlen, hall.pair, ?_⟩
      intro e he
      obtain ⟨i, hi⟩ := List.mem_iff_getElem?.mp he
      have hwant := hall.filled i e hi
      exact ⟨congrArg Prod.fst hwant, congrArg Prod.snd hwant⟩
  · intro old F sz hold hR hF hf hg
    have hF' : ∀ v, v < npages sz → ∃ e x, F v = some e ∧ (e.page, x) ∈ R ∧ copyOf F m v = (e.flags, m.byte e.page) := by
      intro v hv
      obtain ⟨e, x, he, hx⟩ := hF v hv
      refine ⟨e, x, he, hx, ?_⟩
      unfold copyOf
      rw [he]
      rfl
    have hends := ends_uvmcopy (E := fun _ => False) hm hG trivial hK hf hg hold hR hF' h
    obtain ⟨r, m', hrun, hedit, hr⟩ := hends.returns
    refine ⟨r, m', hrun, hedit, ?_⟩
    rcases hr with ⟨hr, hback, hfree⟩ | ⟨hr, new, hlen, hall⟩
    · exact .inl ⟨hr, hback, h.returned hm hback, hfree⟩
    · obtain ⟨hn, hd⟩ := hall.pair.distinct hm
      refine .inr ⟨hr, new, hlen, hall.pair, hn, ?_⟩
      intro v e e' he he'
      have hv : v < npages sz := by
        rw [← hlen]
        exact (List.getElem?_eq_some_iff.mp he).1
      obtain ⟨e₁, x, he₁, hx, hcopy⟩ := hF' v hv
      rw [he'] at he₁
      cases he₁
      have hwant := (hall.filled v e he).trans hcopy
      refine ⟨congrArg Prod.fst hwant, ?_, hd e (List.mem_of_getElem? he) _ hx⟩
      rw [hedit.same.byte _ hx]
      exact congrArg Prod.snd hwant

/-! ### A page grown and copied -/

/-- Nothing is mapped, and nine pages are left. -/
def bare : Ram := ⟨List.range' 0x80020 9, fun _ _ => 0, fun _ => 0, fun _ => .table⟩

def bareBoard : Board := ⟨0x80020000, 0, 0⟩

/-- The first four pages are the page tables of two processes. -/
def forked : Ram := { bare with free := List.range' 0x80024 5 }

theorem bare_stocked : Stocked bareBoard bare := by
  have hboot : bootPages bareBoard bare = {0} := pagesOf_blank fun i _ => Ram.heap_zero _ rfl i
  refine ⟨Nat.le_refl _, ?_, ?_⟩
  · rw [hboot]
    exact Multiset.coe_nodup.mpr (by decide : (List.range' 0x80020 9 ++ [0]).Nodup)
  · intro p hp
    have hrange : ∀ n : Nat, n ∈ List.range' 0x80020 9 → 0x80020000 ≤ n * pgsize ∧ n * pgsize < phystop := by
      intro n hn
      rw [List.mem_range'_1] at hn
      simp only [pgsize_eq, phystop]
      omega
    exact hrange p hp

/-- The page tables of the first process, next to those of the second. -/
theorem forked_pair : Pair bareBoard bare usrIdx (fun _ => none) (fun _ => none) 0x80020 0x80021
    (tabs {0x80022} + tabs {0x80023}) forked := by
  have hrow : ∀ (S : Finset (Fin 512)) (p : Page), ∀ i ∈ S, forked.heap p i = .empty := fun _ _ i _ => Ram.heap_zero _ rfl i
  refine ⟨Table.blank (hrow _ _), Table.blank (hrow _ _), ?_, ?_, fun _ _ => rfl⟩
  · rw [pagesOf_blank (hrow _ _), pagesOf_blank (hrow _ _)]
    rfl
  · intro x hx
    rcases Multiset.mem_add.mp hx with hx | hx
    · exact (mem_tabs.mp hx).2.symm
    · rcases Multiset.mem_add.mp hx with hx | hx
      · exact (mem_tabs.mp hx).2.symm
      · rcases Multiset.mem_add.mp hx with hx | hx
        · exact (mem_tabs.mp hx).2.symm
        · exact (mem_tabs.mp hx).2.symm

theorem resize_allOrNothing_forked : ∃ m₁ e, (uvmalloc bareBoard 0x80020 0x80021 0 pgsize).run forked = .done pgsize m₁ ∧
    (m₁.byte e = fun _ => 0) ∧ ∃ r m₂, (uvmcopy bareBoard 0x80020 0x80022 0x80023 pgsize).run m₁ = .done r m₂ ∧
      (r = -1 ∨ r = 0 ∧ ∃ e', e' ≠ e ∧ m₂.byte e' = m₂.byte e) := by
  obtain ⟨hgrow, -⟩ := resize_allOrNothing bare_stocked (Finset.Subset.refl _) forked_pair
  obtain ⟨r, m₁, hrun, hedit, hr⟩ := hgrow 0 pgsize (by decide) (by decide) (fun _ _ _ => rfl) (fun _ _ _ => rfl)
  obtain ⟨-, -, -, hfree⟩ | ⟨rfl, new, hlen, hpair, hnew⟩ := hr
  · exact absurd hfree (by decide)
  obtain ⟨e, rfl⟩ := List.length_eq_one_iff.mp (hlen.trans (by decide : _ = 1))
  refine ⟨m₁, e.page, hrun, (hnew e (List.mem_singleton_self e)).2, ?_⟩
  have hrow : ∀ (p : Page) (S : Finset (Fin 512)), (p, Use.table) ∈ tabs {0x80022} + tabs {0x80023} → ∀ i ∈ S, m₁.heap p i = .empty := by
    intro p S hp i _
    rw [hedit.same.heap hp]
    exact Ram.heap_zero _ rfl i
  have hu := hrow 0x80022 Finset.univ (by decide)
  have hk := hrow 0x80023 usrIdx (by decide)
  have hpair' : Pair bareBoard bare usrIdx (fun _ => none) (fun _ => none) 0x80022 0x80023
      (tabs (pagesOf m₁ Finset.univ 0x80020) + (tabs (pagesOf m₁ usrIdx 0x80021) + userPages [e])) m₁ := by
    refine ⟨Table.blank hu, Table.blank hk, hpair.books.congr ?_⟩
    rw [pagesOf_blank hu, pagesOf_blank hk]
    abel
  obtain ⟨-, hcopy⟩ := resize_allOrNothing bare_stocked (Finset.Subset.refl _) hpair'
  have hpage : ∀ v, v < npages pgsize → mapAll (fun _ => none) (npages 0) [e] v = some e := by
    intro v hv
    have hv : v = 0 := Nat.lt_one_iff.mp hv
    rw [hv]
    rfl
  obtain ⟨r, m₂, hrun₂, -, hr⟩ := hcopy 0x80020 _ pgsize hpair.user (Multiset.le_add_right _ _)
    (fun v hv => ⟨e, .user, hpage v hv, Multiset.mem_add.mpr (.inr (Multiset.mem_add.mpr (.inr (mem_userPages (List.mem_singleton_self e)))))⟩)
    (fun _ _ _ => rfl) (fun _ _ _ => rfl)
  refine ⟨r, m₂, hrun₂, ?_⟩
  obtain ⟨hr, -⟩ | ⟨hr, new, hlen', -, -, hsame⟩ := hr
  · exact .inl hr
  · obtain ⟨e', rfl⟩ := List.length_eq_one_iff.mp (hlen'.trans (by decide : _ = 1))
    obtain ⟨-, hbyte, hne⟩ := hsame 0 e' e rfl (hpage 0 (by decide))
    exact .inr ⟨hr, e'.page, hne, hbyte⟩

end Farron.Memory
