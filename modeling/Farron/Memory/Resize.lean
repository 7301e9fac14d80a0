import Farron.Memory.Spaces
import Mathlib.Tactic.Abel

/-! Growing, shrinking and copying an address space.

Each function works on the two page tables of a process in turn. Between two of its steps
the tables may differ by one page, so they are followed as a `Pair` of maps. The pages that a
loop has mapped so far are a list, put over the maps from some page number on (`mapAll`); when
memory runs out they are unmapped again and freed, and the maps are as before. -/
namespace Farron.Memory
open Resumption Radix

variable {board : Board} {m₀ m m' m'' : Ram} {R R' : Multiset (Page × Use)} {K : Finset (Fin 512)}
  {f f' g g' : Nat → Option Pte} {u k p : Page} {new : List Pte} {n v : Nat}

/-- A user page table that maps `f` and a kernel page table that maps `g`, next to the rest. -/
structure Pair (board : Board) (m₀ : Ram) (K : Finset (Fin 512)) (f g : Nat → Option Pte) (u k : Page)
    (R : Multiset (Page × Use)) (m : Ram) : Prop where
  user : Table Finset.univ f m u
  kern : Table K g m k
  books : Books board m₀ (tabs (pagesOf m Finset.univ u) + (tabs (pagesOf m K k) + R)) m

namespace Pair

theorem rest (h : Pair board m₀ K f g u k R m) (hR : R = R') : Pair board m₀ K f g u k R' m := hR ▸ h

/-- The user page table, with the kernel's among the rest. -/
theorem onUser (h : Pair board m₀ K f g u k R m) : Holds board m₀ Finset.univ f u (tabs (pagesOf m K k) + R) m :=
  ⟨h.user, h.books⟩

theorem ofUser (h : Pair board m₀ K f g u k R m) (h' : Holds board m₀ Finset.univ f' u (tabs (pagesOf m K k) + R') m')
    (hs : Same (tabs (pagesOf m K k) + R') m m') : Pair board m₀ K f' g u k R' m' ∧ Edit K k R' m m' := by
  refine ⟨⟨h'.table, h.kern.same hs.left, ?_⟩, hs.right, fun j _ => ?_⟩
  · rw [hs.left.pagesOf]
    exact h'.books
  · rw [hs.left.tabs_heap (root_mem_pagesOf _ _ _)]

/-- The kernel page table, with the user's among the rest. -/
theorem onKern (h : Pair board m₀ K f g u k R m) : Holds board m₀ K g k (tabs (pagesOf m Finset.univ u) + R) m := by
  refine ⟨h.kern, h.books.congr ?_⟩
  rw [← add_assoc, add_comm (tabs (pagesOf m Finset.univ u)), add_assoc]

theorem ofKern (h : Pair board m₀ K f g u k R m) (h' : Holds board m₀ K g' k (tabs (pagesOf m Finset.univ u) + R') m')
    (he : Edit K k (tabs (pagesOf m Finset.univ u) + R') m m') : Pair board m₀ K f g' u k R' m' ∧ Edit K k R' m m' := by
  refine ⟨⟨h.user.same he.same.left, h'.table, ?_⟩, he.same.right, he.row⟩
  rw [he.same.left.pagesOf]
  refine h'.books.congr ?_
  rw [← add_assoc, add_comm (tabs (pagesOf m' K k)), add_assoc]

/-- A page more is owned. -/
theorem take {x : Use} (h : Pair board m₀ K f g u k R m)
    (hb : Books board m₀ ((p, x) ::ₘ (tabs (pagesOf m Finset.univ u) + (tabs (pagesOf m K k) + R))) m')
    (hs : Same (tabs (pagesOf m Finset.univ u) + (tabs (pagesOf m K k) + R)) m m') :
    Pair board m₀ K f g u k ((p, x) ::ₘ R) m' ∧ Edit K k R m m' := by
  refine ⟨⟨h.user.same hs.left, h.kern.same hs.right.left, ?_⟩, hs.right.right, fun j _ => ?_⟩
  · rw [hs.left.pagesOf, hs.right.left.pagesOf, Multiset.add_cons, Multiset.add_cons]
    exact hb
  · rw [hs.right.left.tabs_heap (root_mem_pagesOf _ _ _)]

/-- A page of the rest is freed. -/
theorem ends_kfree {G : Label → Ram → Prop} {ok : Use → Prop} {E : Stop → Prop} {x : Use} (hm : Stocked board m₀)
    (hG : Allows board m₀ G ok) (hok : ok x) (h : Pair board m₀ K f g u k ((p, x) ::ₘ R) m) :
    (kfree board p).Ends G E m fun _ m' => Pair board m₀ K f g u k R m' ∧ Edit K k R m m' := by
  have hb : Books board m₀ ((p, x) ::ₘ (tabs (pagesOf m Finset.univ u) + (tabs (pagesOf m K k) + R))) m := by
    refine h.books.congr ?_
    rw [Multiset.add_cons, Multiset.add_cons]
  refine (Memory.ends_kfree hm hG hb hok).imp fun _ m' h' => ?_
  obtain ⟨hb', hs, -⟩ := h'
  refine ⟨⟨h.user.same hs.left, h.kern.same hs.right.left, ?_⟩, hs.right.right, fun j _ => ?_⟩
  · rw [hs.left.pagesOf, hs.right.left.pagesOf]
    exact hb'
  · rw [hs.right.left.tabs_heap (root_mem_pagesOf _ _ _)]

end Pair

/-! ### Pages put over a map -/

/-- `f` with the pages `new` mapped from page number `n` on. -/
def mapAll (f : Nat → Option Pte) (n : Nat) (new : List Pte) (v : Nat) : Option Pte :=
  if n ≤ v ∧ v < n + new.length then new[v - n]? else f v

/-- No user page is mapped from number `n` on. -/
def NoUser (f : Nat → Option Pte) (n : Nat) : Prop := ∀ v, n ≤ v → v < 2 ^ 19 → f v = none

@[simp] theorem mapAll_nil : mapAll f n [] = f := by
  funext v
  unfold mapAll
  rw [List.length_nil, if_neg (by omega)]

theorem mapAll_concat (e : Pte) :
    Function.update (mapAll f n new) (n + new.length) (some e) = mapAll f n (new ++ [e]) := by
  funext v
  unfold mapAll
  rw [Function.update_apply, List.length_append, List.length_singleton]
  by_cases hv : v = n + new.length
  · rw [if_pos hv, if_pos (by omega), hv, Nat.add_sub_cancel_left, List.getElem?_concat_length]
  · rw [if_neg hv]
    by_cases hin : n ≤ v ∧ v < n + new.length
    · rw [if_pos hin, if_pos (by omega), List.getElem?_append_left (by omega)]
    · rw [if_neg hin, if_neg (by omega)]

/-- The next page number is still free. -/
theorem mapAll_next (hf : NoUser f n) (hlt : n + new.length < 2 ^ 19) : mapAll f n new (n + new.length) = none := by
  unfold mapAll
  rw [if_neg (by omega)]
  exact hf _ (Nat.le_add_right _ _) hlt

theorem mapAll_isSome (hv : n ≤ v) (hlt : v < n + new.length) : (mapAll f n new v).isSome := by
  unfold mapAll
  rw [if_pos ⟨hv, hlt⟩, List.getElem?_eq_getElem (by omega)]
  rfl

theorem erase_mapAll (hf : NoUser f n) (hlt : n + new.length ≤ 2 ^ 19) :
    erase (mapAll f n new) n new.length = f := by
  funext v
  unfold erase mapAll
  by_cases hv : n ≤ v ∧ v < n + new.length
  · rw [if_pos hv, hf v hv.1 (by omega)]
  · rw [if_neg hv, if_neg hv]

theorem mapped_mapAll : mapped (mapAll f n new) .user n new.length = userPages new := by
  apply mapped_eq_userPages
  intro i hi
  unfold mapAll
  rw [if_pos (by omega), Nat.add_sub_cancel_left]

/-! ### One page, in both tables -/

section Ends
variable {G : Label → Ram → Prop} {ok : Use → Prop} {E : Stop → Prop} {α : Type} {Q : α → Ram → Prop}
  (hm : Stocked board m₀) (hG : Allows board m₀ G ok)
include hm hG

/-- A page is mapped in the user page table. -/
theorem ends_map_user {pa : Page} {perm : Nat} (h : Pair board m₀ K f g u k R m) (hv : v < 2 ^ 19) (hf : f v = none)
    (hpa : pa < 2 ^ 52) (hperm : perm < 1024) (hleaf : isLeaf perm = true) :
    (mappages u (v * pgsize) pgsize pa perm).Ends G E m fun r m' => Edit K k R m m' ∧
      ((r = -1 ∧ Pair board m₀ K f g u k R m' ∧ m.free.length < 2) ∨
        (r = 0 ∧ Pair board m₀ K (Function.update f v (some ⟨pa, perm ||| pteV⟩)) g u k R m' ∧
          m.free.length ≤ m'.free.length + 2)) := by
  have hmissing := missing_le m.heap 2 u (px (v * pgsize))
  refine (ends_mappages hm hG h.onUser (by omega) (Finset.mem_univ _) hf hpa hperm hleaf).imp fun r m' h' => ?_
  obtain ⟨hedit, hr⟩ := h'
  rcases hr with ⟨hr, h', -, hlen⟩ | ⟨hr, h', -, hlen⟩
  · obtain ⟨hp, he⟩ := h.ofUser h' hedit.same
    exact ⟨he, .inl ⟨hr, hp, by omega⟩⟩
  · obtain ⟨hp, he⟩ := h.ofUser h' hedit.same
    exact ⟨he, .inr ⟨hr, hp, by omega⟩⟩

/-- A page is mapped in the kernel page table. -/
theorem ends_map_kern {pa : Page} {perm : Nat} (hK : usrIdx ⊆ K) (h : Pair board m₀ K f g u k R m) (hv : v < 2 ^ 19)
    (hg : g v = none) (hpa : pa < 2 ^ 52) (hperm : perm < 1024) (hleaf : isLeaf perm = true) :
    (mappages k (v * pgsize) pgsize pa perm).Ends G E m fun r m' => Edit K k R m m' ∧
      ((r = -1 ∧ Pair board m₀ K f g u k R m' ∧ m.free.length < 2) ∨
        (r = 0 ∧ Pair board m₀ K f (Function.update g v (some ⟨pa, perm ||| pteV⟩)) u k R m' ∧
          m.free.length ≤ m'.free.length + 2)) := by
  have hmissing := missing_le m.heap 2 k (px (v * pgsize))
  refine (ends_mappages hm hG h.onKern (by omega) (hK (usrIdx_of_lt hv)) hg hpa hperm hleaf).imp fun r m' h' => ?_
  obtain ⟨hedit, hr⟩ := h'
  rcases hr with ⟨hr, h', -, hlen⟩ | ⟨hr, h', -, hlen⟩
  · obtain ⟨hp, he⟩ := h.ofKern h' hedit
    exact ⟨he, .inl ⟨hr, hp, by omega⟩⟩
  · obtain ⟨hp, he⟩ := h.ofKern h' hedit
    exact ⟨he, .inr ⟨hr, hp, by omega⟩⟩

/-- A page is mapped in one table after the other, and what follows each failure. -/
theorem ends_map_both {mem : Page} {perm perm' : Nat} {noUser noKern both : Vm α} (hK : usrIdx ⊆ K)
    (h : Pair board m₀ K f g u k R m) (hv : v < 2 ^ 19) (hf : f v = none) (hg : g v = none) (hmem : mem < 2 ^ 52)
    (hperm : perm < 1024) (hleaf : isLeaf perm = true) (hperm' : perm' < 1024) (hleaf' : isLeaf perm' = true)
    (hnoUser : ∀ m', Pair board m₀ K f g u k R m' → Edit K k R m m' → m.free.length < 4 → noUser.Ends G E m' Q)
    (hnoKern : ∀ m', Pair board m₀ K (Function.update f v (some ⟨mem, perm ||| pteV⟩)) g u k R m' → Edit K k R m m' →
      m.free.length < 4 → noKern.Ends G E m' Q)
    (hboth : ∀ m', Pair board m₀ K (Function.update f v (some ⟨mem, perm ||| pteV⟩))
      (Function.update g v (some ⟨mem, perm' ||| pteV⟩)) u k R m' → Edit K k R m m' →
      m.free.length ≤ m'.free.length + 4 → both.Ends G E m' Q) :
    (do
      if (← mappages u (v * pgsize) pgsize mem perm) ≠ 0 then noUser
      else if (← mappages k (v * pgsize) pgsize mem perm') ≠ 0 then noKern
      else both).Ends G E m Q := by
  apply (ends_map_user hm hG h hv hf hmem hperm hleaf).bind
  intro r m₁ hr
  obtain ⟨he₁, ⟨rfl, h₁, hfree₁⟩ | ⟨rfl, h₁, hfree₁⟩⟩ := hr
  · rw [if_pos (by decide)]
    exact hnoUser m₁ h₁ he₁ (by omega)
  · rw [if_neg (by decide)]
    apply (ends_map_kern hm hG hK h₁ hv hg hmem hperm' hleaf').bind
    intro r m₂ hr
    obtain ⟨he₂, ⟨rfl, h₂, hfree₂⟩ | ⟨rfl, h₂, hfree₂⟩⟩ := hr
    · rw [if_pos (by decide)]
      exact hnoKern m₂ h₂ (he₁.trans he₂) (by omega)
    · rw [if_neg (by decide)]
      exact hboth m₂ h₂ (he₁.trans he₂) (by omega)

/-- Pages are unmapped from the user page table and freed. -/
theorem ends_unmap_user (hok : ok .user) (hf : NoUser f n) (hfew : n + new.length ≤ 2 ^ 19)
    (h : Pair board m₀ K (mapAll f n new) g u k (userPages new + R) m) :
    (vmunmap board u (n * pgsize) new.length true).Ends G E m fun _ m' =>
      Pair board m₀ K f g u k R m' ∧ Edit K k R m m' := by
  refine (ends_vmunmap (u := .user) (d := true) (R := tabs (pagesOf m K k) + R) hm hG new.length (by omega)
    (fun _ _ _ => Finset.mem_univ _) (fun x hx hx' => mapAll_isSome hx hx') (fun _ => hok) (h.onUser.rest ?_)).imp
    fun _ m' h' => ?_
  · rw [if_pos rfl, mapped_mapAll, ← add_assoc, add_comm (tabs _), add_assoc]
  · rw [erase_mapAll hf hfew] at h'
    exact h.ofUser h'.1 h'.2.same

/-- Pages are unmapped from the kernel page table. -/
theorem ends_unmap_kern (hK : usrIdx ⊆ K) (hg : NoUser g n) (hfew : n + new.length ≤ 2 ^ 19)
    (h : Pair board m₀ K f (mapAll g n new) u k R m) :
    (vmunmap board k (n * pgsize) new.length false).Ends G E m fun _ m' =>
      Pair board m₀ K f g u k R m' ∧ Edit K k R m m' := by
  refine (ends_vmunmap (u := .user) (d := false) (R := tabs (pagesOf m Finset.univ u) + R) hm hG new.length (by omega)
    (fun x _ hx => hK (usrIdx_of_lt (by omega))) (fun x hx hx' => mapAll_isSome hx hx')
    (fun hd => absurd hd (by decide)) (h.onKern.rest ?_)).imp fun _ m' h' => ?_
  · rw [if_neg (by decide), zero_add]
  · rw [erase_mapAll hg hfew] at h'
    exact h.ofKern h'.1 h'.2

/-! ### Pages in both tables -/

omit hm hG

/-- The pages `new` have the flags and the contents that are wanted of them. -/
def Filled (want : Nat → Nat × (Nat → Byte)) (new : List Pte) (m : Ram) : Prop :=
  ∀ i e, new[i]? = some e → (e.flags, m.byte e.page) = want i

/-- The pages `new` are mapped in both tables, from page number `n` on. -/
structure Mapped (board : Board) (m₀ : Ram) (K : Finset (Fin 512)) (f g : Nat → Option Pte) (u k : Page)
    (R : Multiset (Page × Use)) (n : Nat) (want : Nat → Nat × (Nat → Byte)) (new : List Pte) (m : Ram) : Prop where
  pair : Pair board m₀ K (mapAll f n new) (mapAll g n (new.map Pte.kern)) u k (userPages new + R) m
  filled : Filled want new m

/-- What a loop comes to that is to map `N` pages, and has mapped `new` when it is in state `m`: the tables
are as before the first page, and memory was short, or all pages are mapped. -/
def AllOrNone {ρ : Type} (board : Board) (m₀ : Ram) (K : Finset (Fin 512)) (f g : Nat → Option Pte) (u k : Page)
    (R : Multiset (Page × Use)) (n N : Nat) (want : Nat → Nat × (Nat → Byte)) (bad good : ρ) (new : List Pte) (m : Ram)
    (r : ρ) (m' : Ram) : Prop :=
  Edit K k R m m' ∧ ((r = bad ∧ Pair board m₀ K f g u k R m' ∧ m.free.length < 5 * (N - new.length)) ∨
    (r = good ∧ ∃ new', new'.length = N ∧ Mapped board m₀ K f g u k R n want new' m'))

section Steps
variable {want : Nat → Nat × (Nat → Byte)} {N : Nat} {e : Pte} {ρ : Type} {bad good r : ρ}

theorem Filled.nil : Filled want [] m := by
  intro i e he
  rw [List.getElem?_nil] at he
  cases he

theorem getElem?_concat {α : Type} (xs : List α) (x : α) (v : Nat) :
    (xs ++ [x])[v]? = if v = xs.length then some x else xs[v]? := by
  by_cases hv : v = xs.length
  · rw [if_pos hv, hv, List.getElem?_concat_length]
  · rw [if_neg hv]
    by_cases hlt : v < xs.length
    · rw [List.getElem?_append_left hlt]
    · rw [List.getElem?_eq_none (by rw [List.length_append, List.length_singleton]; omega),
        List.getElem?_eq_none (by omega)]

theorem Filled.concat (h : Filled want new m) (hs : Same (userPages new) m m')
    (he : (e.flags, m'.byte e.page) = want new.length) : Filled want (new ++ [e]) m' := by
  intro i e' hi
  rw [getElem?_concat] at hi
  by_cases hlast : i = new.length
  · rw [if_pos hlast] at hi
    cases hi
    rw [hlast]
    exact he
  · rw [if_neg hlast] at hi
    rw [hs.byte _ (mem_userPages (List.mem_of_getElem? hi))]
    exact h i e' hi

theorem Mapped.nil (h : Pair board m₀ K f g u k R m) : Mapped board m₀ K f g u k R n want [] m := by
  refine ⟨?_, .nil⟩
  rw [List.map_nil, mapAll_nil, mapAll_nil, userPages_nil, zero_add]
  exact h

theorem userPages_concat (new : List Pte) (e : Pte) (R : Multiset (Page × Use)) :
    (e.page, Use.user) ::ₘ (userPages new + R) = userPages (new ++ [e]) + R := by
  rw [userPages_append, userPages_singleton, ← Multiset.singleton_add]
  abel

/-- The next page is mapped in both tables. -/
theorem Mapped.concat (h : Mapped board m₀ K f g u k R n want new m)
    (h' : Pair board m₀ K (Function.update (mapAll f n new) (n + new.length) (some e))
      (Function.update (mapAll g n (new.map Pte.kern)) (n + new.length) (some e.kern)) u k
      ((e.page, .user) ::ₘ (userPages new + R)) m')
    (hs : Same (userPages new) m m') (he : (e.flags, m'.byte e.page) = want new.length) :
    Mapped board m₀ K f g u k R n want (new ++ [e]) m' := by
  refine ⟨?_, h.filled.concat hs he⟩
  have hlen : n + new.length = n + (new.map Pte.kern).length := by rw [List.length_map]
  rw [mapAll_concat, hlen, mapAll_concat, userPages_concat] at h'
  rw [List.map_append]
  exact h'

/-- One more page was mapped first. -/
theorem AllOrNone.cons (h : AllOrNone board m₀ K f g u k R n N want bad good (new ++ [e]) m' r m'')
    (he : Edit K k R m m') (hlt : new.length < N) (hlen : m.free.length ≤ m'.free.length + 5) :
    AllOrNone board m₀ K f g u k R n N want bad good new m r m'' := by
  obtain ⟨he', hr⟩ := h
  rw [List.length_append, List.length_singleton] at hr
  refine ⟨he.trans he', hr.imp (fun hbad => ⟨hbad.1, hbad.2.1, ?_⟩) id⟩
  have := hbad.2.2
  omega

end Steps

include hm hG

/-- The last user pages are gone, for sizes that say so. -/
theorem ends_uvmdealloc {oldsz newsz : Nat} (hok : ok .user) (hK : usrIdx ⊆ K) (hf : NoUser f n) (hg : NoUser g n)
    (hfew : n + new.length ≤ 2 ^ 19)
    (h : Pair board m₀ K (mapAll f n new) (mapAll g n (new.map Pte.kern)) u k (userPages new + R) m)
    (hold : npages oldsz = n + new.length) (hnew : npages newsz = n) (hlt : newsz < oldsz ∨ new = []) :
    (uvmdealloc board u k oldsz newsz).Ends G E m fun r m' =>
      r = (if newsz ≥ oldsz then oldsz else newsz) ∧ Pair board m₀ K f g u k R m' ∧ Edit K k R m m' := by
  have hnil : new = [] → Pair board m₀ K f g u k R m := by
    rintro rfl
    rw [List.map_nil, mapAll_nil, mapAll_nil, userPages_nil, zero_add] at h
    exact h
  replace hold := pgroundup_eq hold hfew
  replace hnew := pgroundup_eq hnew (by omega)
  unfold uvmdealloc
  by_cases hge : newsz ≥ oldsz
  · rw [if_pos hge, if_pos hge]
    exact ⟨rfl, hnil (hlt.resolve_left (by omega)), Edit.refl _ _ _ _⟩
  · rw [if_neg hge, if_neg hge]
    by_cases hround : pgroundup newsz < pgroundup oldsz
    · have hn : ofInt32 ((pgroundup oldsz - pgroundup newsz) / pgsize) = new.length := by
        have hdiff : (pgroundup oldsz - pgroundup newsz) / pgsize = new.length := by
          rw [hold, hnew, pgsize_eq]
          omega
        rw [hdiff]
        exact ofInt32_of_lt (by omega)
      rw [if_pos hround]
      simp only [hn]
      rw [hnew]
      have hkern : (vmunmap board k (n * pgsize) (new.map Pte.kern).length false).Ends G E m _ :=
        ends_unmap_kern hm hG hK hg (by rw [List.length_map]; exact hfew) h
      rw [List.length_map] at hkern
      apply hkern.bind
      intro _ m₁ h₁
      obtain ⟨h₁, he₁⟩ := h₁
      apply (ends_unmap_user hm hG hok hf hfew h₁).bind
      intro _ m₂ h₂
      exact ⟨rfl, h₂.1, (he₁.mono (Multiset.le_add_left _ _)).trans h₂.2⟩
    · rw [if_neg hround]
      refine ⟨rfl, hnil (List.length_eq_zero_iff.mp ?_), Edit.refl _ _ _ _⟩
      rw [hold, hnew, pgsize_eq] at hround
      omega

/-! ### A page more -/

omit hm hG in
/-- What is in the pages mapped so far stays. -/
theorem Filled.same {want : Nat → Nat × (Nat → Byte)} (h : Filled want new m) (hs : Same (userPages new) m m') : Filled want new m' := by
  intro i e hi
  rw [hs.byte _ (mem_userPages (List.mem_of_getElem? hi))]
  exact h i e hi

/-- A round of a loop that maps pages: a page is taken, filled with the bytes `b` and mapped in both tables. Where
there is none, or the user page table does not take it, `undo` follows; where only that one has taken it, `half`. -/
theorem ends_round (perm perm' : Nat) (b : Nat → Byte) {ρ : Type} {Q : ρ → Ram → Prop} {want : Nat → Nat × (Nat → Byte)}
    {step : Option Page → Vm ρ} {fill : Page → Vm Unit} {undo : Vm ρ} {half next : Page → Vm ρ} (hok : ok .user)
    (hK : usrIdx ⊆ K) (hf : NoUser f n) (hg : NoUser g n) (h : Mapped board m₀ K f g u k R n want new m)
    (hv : v = n + new.length) (hfew : n + new.length < 2 ^ 19)
    (hperm : perm < 1024) (hleaf : isLeaf perm = true) (hperm' : perm' < 1024) (hleaf' : isLeaf perm' = true)
    (hwant : want new.length = (perm ||| pteV, b)) (hkern : perm' ||| pteV = noU (perm ||| pteV))
    (hnone : step none = undo)
    (hsome : ∀ mem, step (some mem) = fill mem >>= fun _ => do
      if (← mappages u (v * pgsize) pgsize mem perm) ≠ 0 then
        kfree board mem
        undo
      else if (← mappages k (v * pgsize) pgsize mem perm') ≠ 0 then half mem
      else next mem)
    (hfill : ∀ mem m', Same R m m' → (fill mem).Ends G E m' fun _ m'' => m'' = m'.write mem b)
    (hundo : ∀ m', Mapped board m₀ K f g u k R n want new m' → Edit K k R m m' → m.free.length < 5 → undo.Ends G E m' Q)
    (hhalf : ∀ mem m', Pair board m₀ K (mapAll f n (new ++ [⟨mem, perm ||| pteV⟩])) (mapAll g n (new.map Pte.kern)) u k
      (userPages (new ++ [⟨mem, perm ||| pteV⟩]) + R) m' → Edit K k R m m' → m.free.length < 5 → (half mem).Ends G E m' Q)
    (hnext : ∀ mem m', Mapped board m₀ K f g u k R n want (new ++ [⟨mem, perm ||| pteV⟩]) m' → Edit K k R m m' →
      m.free.length ≤ m'.free.length + 5 → (next mem).Ends G E m' Q) : (kalloc .user >>= step).Ends G E m Q := by
  subst hv
  have hmissing : mapAll g n (new.map Pte.kern) (n + new.length) = none := by
    rw [show n + new.length = n + (new.map Pte.kern).length by rw [List.length_map]]
    exact mapAll_next hg (by rw [List.length_map]; exact hfew)
  apply ends_kalloc hm hG h.pair.books
  · intro hempty
    rw [hnone]
    refine hundo m h (Edit.refl _ _ _ _) ?_
    rw [hempty]
    exact Nat.succ_pos 4
  · intro mem m₁ hfree₁ hb₁ hs₁
    have hlen₁ : m.free.length = m₁.free.length + 1 := congrArg List.length hfree₁
    have hmem : mem < 2 ^ 52 := (hb₁.managed hm (Multiset.mem_cons_self _ _)).lt
    rw [hsome]
    apply (hfill mem m₁ hs₁.right.right.right).bind
    rintro _ m₂ rfl
    obtain ⟨hb₂, hs₂⟩ := hb₁.write hm b
    obtain ⟨h₂, he₂⟩ := h.pair.take hb₂ (hs₁.trans hs₂)
    have hedit : ∀ {m₃}, Edit K k ((mem, .user) ::ₘ (userPages new + R)) (m₁.write mem b) m₃ → Edit K k R m m₃ := fun he₃ =>
      (he₂.mono (Multiset.le_add_left _ _)).trans
        (he₃.mono ((Multiset.le_add_left _ _).trans (Multiset.le_cons_self _ _)))
    apply ends_map_both hm hG hK h₂ hfew (mapAll_next hf hfew) hmissing hmem hperm hleaf hperm' hleaf'
    · intro m₃ h₃ he₃ hshort
      have hshort : m₁.free.length < 4 := hshort
      apply (h₃.ends_kfree hm hG hok).bind
      intro _ m₄ h₄
      have hs₄ : Same (userPages new) m m₄ := (he₂.same.left.trans he₃.same.tail.left).trans h₄.2.same.left
      exact hundo m₄ ⟨h₄.1, h.filled.same hs₄⟩ ((hedit he₃).trans (h₄.2.mono (Multiset.le_add_left _ _))) (by omega)
    · intro m₃ h₃ he₃ hshort
      have hshort : m₁.free.length < 4 := hshort
      rw [mapAll_concat] at h₃
      exact hhalf mem m₃ (h₃.rest (userPages_concat new ⟨mem, perm ||| pteV⟩ R)) (hedit he₃) (by omega)
    · intro m₃ h₃ he₃ hfree₃
      have hfree₃ : m₁.free.length ≤ m₃.free.length + 4 := hfree₃
      have hbyte : m₃.byte mem = b := by
        rw [he₃.same.byte _ (Multiset.mem_cons_self _ _)]
        exact m₁.write_byte mem _
      rw [hkern] at h₃
      exact hnext mem m₃ (h.concat (e := ⟨mem, perm ||| pteV⟩) h₃ (he₂.same.left.trans he₃.same.tail.left)
        (by rw [hwant, hbyte])) (hedit he₃) (by omega)

/-! ### uvmalloc -/

section Grow
variable {newsz N : Nat} {want : Nat → Nat × (Nat → Byte)} (hok : ok .user) (hK : usrIdx ⊆ K) (hf : NoUser f n) (hg : NoUser g n)
include hok hK hf hg

/-- The pages mapped so far are taken back. -/
theorem ends_growUndo (h : Mapped board m₀ K f g u k R n want new m) (hfew : n + new.length ≤ 2 ^ 19) :
    (uvmdealloc board u k ((n + new.length) * pgsize) (n * pgsize)).Ends G E m fun _ m' =>
      Pair board m₀ K f g u k R m' ∧ Edit K k R m m' := by
  have hshrinks : n * pgsize < (n + new.length) * pgsize ∨ new = [] := by
    by_cases hnil : new = []
    · exact .inr hnil
    · have := List.length_pos_iff.mpr hnil
      refine .inl ?_
      simp only [pgsize_eq]
      omega
  exact (ends_uvmdealloc hm hG hok hK hf hg hfew h.pair (npages_mul _) (npages_mul _) hshrinks).imp fun _ _ h' => h'.2

/-- So are they where the user page table has one more. -/
theorem ends_growHalf {e : Pte} (hfew : n + new.length < 2 ^ 19)
    (h : Pair board m₀ K (mapAll f n (new ++ [e])) (mapAll g n (new.map Pte.kern)) u k (userPages (new ++ [e]) + R) m) :
    (vmunmap board u (n * pgsize) (new.length + 1) true >>= fun _ => vmunmap board k (n * pgsize) new.length false).Ends G E m
      fun _ m' => Pair board m₀ K f g u k R m' ∧ Edit K k R m m' := by
  have hlen : (new ++ [e]).length = new.length + 1 := by rw [List.length_append, List.length_singleton]
  have huser : (vmunmap board u (n * pgsize) (new ++ [e]).length true).Ends G E m _ :=
    ends_unmap_user hm hG hok hf (by omega) h
  rw [hlen] at huser
  apply huser.bind
  intro _ m₁ h₁
  have hkern : (vmunmap board k (n * pgsize) (new.map Pte.kern).length false).Ends G E m₁ _ :=
    ends_unmap_kern hm hG hK hg (by rw [List.length_map]; exact hfew.le) h₁.1
  rw [List.length_map] at hkern
  exact hkern.imp fun _ m₂ h₂ => ⟨h₂.1, h₁.2.trans h₂.2⟩

/-- The loop of `uvmalloc`, with the user pages `new` mapped so far. Where there are few pages below, the
memory is short before the page numbers are. -/
theorem ends_growLoop (hmax : npages newsz ≤ 2 ^ 19 ∨ n + 0x5E0 < 2 ^ 19) (hN : npages newsz - n = N) (rounds : Nat)
    (h : Mapped board m₀ K f g u k R n (fun _ => (31, fun _ => 0)) new m) (hle : new.length ≤ N)
    (hrounds : N ≤ new.length + rounds) :
    (growLoop board u k (n * pgsize) newsz (rounds + 1) ((n + new.length) * pgsize)).Ends G E m
      (AllOrNone board m₀ K f g u k R n N (fun _ => (31, fun _ => 0)) 0 newsz new m) := by
  have hdone : ∀ {new m}, Mapped board m₀ K f g u k R n (fun _ => (31, fun _ => 0)) new m → new.length = N →
      AllOrNone board m₀ K f g u k R n N (fun _ => (31, fun _ => 0)) 0 newsz new m newsz m :=
    fun h hlen => ⟨Edit.refl _ _ _ _, .inr ⟨rfl, _, hlen, h⟩⟩
  induction rounds generalizing new m with
  | zero =>
    have hlen : new.length = N := by omega
    have hge : ¬ (n + new.length) * pgsize < newsz := by
      unfold npages at hN
      simp only [pgsize_eq]
      omega
    unfold growLoop
    rw [if_neg hge]
    exact hdone h hlen
  | succ rounds ih =>
    unfold growLoop
    by_cases hlt : (n + new.length) * pgsize < newsz
    · have hin : new.length < N := by
        unfold npages at hN
        simp only [pgsize_eq] at hlt
        omega
      have hfew : n + new.length < 2 ^ 19 := by
        rcases hmax with hmax | hmax
        · omega
        · have hb : Books board m₀ (userPages new + (tabs (pagesOf m Finset.univ u) + (tabs (pagesOf m K k) + R))) m := by
            refine h.pair.books.congr ?_
            abel
          have := hb.length_le hm
          omega
      have hback : ∀ {m'}, Pair board m₀ K f g u k R m' → Edit K k R m m' → m.free.length < 5 →
          AllOrNone board m₀ K f g u k R n N (fun _ => (31, fun _ => 0)) 0 newsz new m 0 m' :=
        fun h' he' hfree => ⟨he', .inl ⟨rfl, h', by omega⟩⟩
      rw [if_pos hlt]
      refine ends_round hm hG (pteW ||| pteX ||| pteR ||| pteU) (pteW ||| pteX ||| pteR) (fun _ => 0)
        hok hK hf hg h rfl hfew (by decide) (by decide) (by decide) (by decide) rfl (by decide) rfl (fun _ => rfl)
        (fun _ _ _ => .change_last (hG.plain _) rfl) (fun m' h' he' hshort => ?_) (fun mem m' h' he' hshort => ?_)
        fun mem m' h' he' hfree => ?_
      · apply (ends_growUndo hm hG hok hK hf hg h' hfew.le).bind
        intro _ m'' h''
        exact hback h''.1 (he'.trans h''.2) hshort
      · have hn : ofInt32 (((n + new.length) * pgsize - n * pgsize) / pgsize) = new.length := by
          rw [← Nat.sub_mul, Nat.add_sub_cancel_left, Nat.mul_div_cancel _ (by decide)]
          exact ofInt32_of_lt (by omega)
        simp only [hn, ofInt32_of_lt (show new.length + 1 < 2 ^ 31 by omega)]
        rw [← Prog.bind_assoc]
        apply (ends_growHalf hm hG hok hK hf hg hfew h').bind
        intro _ m'' h''
        exact hback h''.1 (he'.trans h''.2) hshort
      · have hlen : (new ++ [(⟨mem, (pteW ||| pteX ||| pteR ||| pteU) ||| pteV⟩ : Pte)]).length = new.length + 1 := by
          rw [List.length_append, List.length_singleton]
        have hnext : u64 ((n + new.length) * pgsize + pgsize) = (n + (new.length + 1)) * pgsize := by
          simp only [u64, pgsize_eq]
          omega
        rw [hnext, ← hlen]
        exact (ih h' (by omega) (by omega)).imp fun r m'' h'' => h''.cons he' hin hfree
    · have hlen : new.length = N := by
        unfold npages at hN
        simp only [pgsize_eq] at hlt
        omega
      rw [if_neg hlt]
      exact hdone h hlen

/-- `uvmalloc` where it has something to map or nothing. -/
theorem ends_uvmalloc_of {oldsz : Nat} (hold : npages oldsz = n) (hle : oldsz ≤ newsz) (hn : n ≤ 2 ^ 19)
    (hmax : npages newsz ≤ 2 ^ 19 ∨ n + 0x5E0 < 2 ^ 19) (h : Pair board m₀ K f g u k R m) :
    (uvmalloc board u k oldsz newsz).Ends G E m
      (AllOrNone board m₀ K f g u k R n (npages newsz - n) (fun _ => (31, fun _ => 0)) 0 newsz [] m) := by
  have hloop := ends_growLoop (E := E) hm hG hok hK hf hg hmax rfl ((newsz - n * pgsize) / pgsize + 1) (Mapped.nil h)
    (Nat.zero_le _) ?_
  · unfold uvmalloc
    rw [if_neg (Nat.not_lt.mpr hle), pgroundup_eq hold hn]
    exact hloop
  · unfold npages
    simp only [pgsize_eq, List.length_nil]
    omega

theorem ends_uvmalloc {oldsz : Nat} (hold : npages oldsz = n) (hle : oldsz ≤ newsz) (hlt : newsz < maxuva)
    (h : Pair board m₀ K f g u k R m) :
    (uvmalloc board u k oldsz newsz).Ends G E m
      (AllOrNone board m₀ K f g u k R n (npages newsz - n) (fun _ => (31, fun _ => 0)) 0 newsz [] m) := by
  have hlt : newsz < 2 ^ 31 := hlt
  have hmax : npages newsz ≤ 2 ^ 19 := by
    unfold npages
    omega
  have hmono : n ≤ npages newsz := by
    unfold npages at hold ⊢
    omega
  exact ends_uvmalloc_of hm hG hok hK hf hg hold hle (hmono.trans hmax) (.inl hmax) h

end Grow

/-! ### uvmcopy -/

section Copy
variable {old : Page} {F : Nat → Option Pte} {sz N : Nat} {want : Nat → Nat × (Nat → Byte)} (hok : ok .user) (hK : usrIdx ⊆ K) (hf : NoUser f 0) (hg : NoUser g 0)
include hok hK hf hg

/-- The pages copied so far are unmapped again; the user page table may have one more. -/
theorem ends_uncopy {new' : List Pte} (hfew : new.length ≤ 2 ^ 19) (hfew' : new'.length ≤ 2 ^ 19)
    (h : Pair board m₀ K (mapAll f 0 new') (mapAll g 0 (new.map Pte.kern)) u k (userPages new' + R) m) :
    (vmunmap board k 0 new.length false >>= fun _ => vmunmap board u 0 new'.length true).Ends G E m fun _ m' =>
      Pair board m₀ K f g u k R m' ∧ Edit K k R m m' := by
  have hkern : (vmunmap board k (0 * pgsize) (new.map Pte.kern).length false).Ends G E m _ :=
    ends_unmap_kern hm hG hK hg (by rw [List.length_map, Nat.zero_add]; exact hfew) h
  rw [List.length_map, Nat.zero_mul] at hkern
  apply hkern.bind
  intro _ m₁ h₁
  obtain ⟨h₁, he₁⟩ := h₁
  have huser : (vmunmap board u (0 * pgsize) new'.length true).Ends G E m₁ _ :=
    ends_unmap_user hm hG hok hf (by rw [Nat.zero_add]; exact hfew') h₁
  rw [Nat.zero_mul] at huser
  refine huser.imp ?_
  intro _ m₂ h₂
  exact ⟨h₂.1, (he₁.mono (Multiset.le_add_left _ _)).trans h₂.2⟩

/-- The loop of `uvmcopy`, with the pages `new` copied so far. -/
theorem ends_copyLoop (hN : npages sz = N) (rounds : Nat)
    (hold : Table Finset.univ F m old) (hR : tabs (pagesOf m Finset.univ old) ≤ R)
    (hF : ∀ i, i < N → ∃ e x, F i = some e ∧ (e.page, x) ∈ R ∧ want i = (e.flags, m.byte e.page))
    (h : Mapped board m₀ K f g u k R 0 want new m) (hle : new.length ≤ N) (hrounds : N ≤ new.length + rounds) :
    (copyLoop board old u k sz (rounds + 1) (new.length * pgsize) (new.length * pgsize)).Ends G E m
      (AllOrNone board m₀ K f g u k R 0 N want (-1) 0 new m) := by
  have hdone : ∀ {new m}, Mapped board m₀ K f g u k R 0 want new m → new.length = N →
      AllOrNone board m₀ K f g u k R 0 N want (-1) (0 : Int) new m 0 m :=
    fun h hlen => ⟨Edit.refl _ _ _ _, .inr ⟨rfl, _, hlen, h⟩⟩
  induction rounds generalizing new m with
  | zero =>
    have hlen : new.length = N := by omega
    have hge : ¬ new.length * pgsize < sz := by
      unfold npages at hN
      simp only [pgsize_eq]
      omega
    unfold copyLoop
    rw [if_neg hge]
    exact hdone h hlen
  | succ rounds ih =>
    unfold copyLoop
    by_cases hlt : new.length * pgsize < sz
    · have hin : new.length < N := by
        unfold npages at hN
        simp only [pgsize_eq] at hlt
        omega
      have hfew : new.length ≤ 0x5E0 := by
        refine (h.pair.books.congr ?_ : Books board m₀ (userPages new +
          (tabs (pagesOf m Finset.univ u) + (tabs (pagesOf m K k) + R))) m).length_le hm
        abel
      obtain ⟨e, x, he, hx, hwant⟩ := hF new.length hin
      have hdiv : new.length * pgsize / pgsize = new.length := Nat.mul_div_cancel _ (by decide)
      have hnext : u64 (new.length * pgsize + pgsize) = (new.length + 1) * pgsize := by
        simp only [u64, pgsize_eq]
        omega
      rw [if_pos hlt]
      apply ends_walk_some hG hold (by omega) (Finset.mem_univ _) he
      intro q hq hent
      apply ends_loadPte hG
      obtain ⟨hval, -, hpa, hfl⟩ := entry_leaf hent
      obtain ⟨hperm, hleaf, hv, hperm', hleaf', hv'⟩ := flags_leaf hent
      simp only [hval, Bool.not_true, Bool.false_eq_true, if_false, hpa, hfl, hdiv]
      -- everything copied so far is given back
      have hundo : ∀ {m₁ new'}, Pair board m₀ K (mapAll f 0 new') (mapAll g 0 (new.map Pte.kern)) u k (userPages new' + R) m₁ →
          Edit K k R m m₁ → m.free.length < 5 → new'.length ≤ 2 ^ 19 →
          (vmunmap board k 0 new.length false >>= fun _ => vmunmap board u 0 new'.length true >>= fun _ => pure (-1)).Ends
            G E m₁ (AllOrNone board m₀ K f g u k R 0 N want (-1) (0 : Int) new m) := by
        intro m₁ new' h₁ he₁ hfree hfew'
        rw [← Prog.bind_assoc]
        apply (ends_uncopy hm hG hok hK hf hg (by omega) hfew' h₁).bind
        intro _ m₂ h₂
        exact ⟨he₁.trans h₂.2, .inl ⟨rfl, h₂.1, by omega⟩⟩
      refine ends_round hm hG e.flags (noU e.flags) (m.byte e.page) hok hK hf hg h
        (Nat.zero_add _).symm (by omega) hperm hleaf hperm' hleaf' (by rw [hwant, hv]) (by rw [hv', hv]) rfl (fun _ => rfl)
        (fun mem m' hs => .change_last (hG.plain _) (by rw [hs.byte _ hx]))
        (fun m' h' he' hshort => hundo h'.pair he' hshort (by omega)) (fun mem m' h' he' hshort => ?_) fun mem m' h' he' hfree => ?_
      · have hlen : (new ++ [(⟨mem, e.flags ||| pteV⟩ : Pte)]).length = new.length + 1 := by
          rw [List.length_append, List.length_singleton]
        have hhalf := hundo h' he' hshort (by omega)
        rw [hlen] at hhalf
        rw [hnext, Nat.mul_div_cancel _ (by decide)]
        exact hhalf
      · have hlen : (new ++ [(⟨mem, e.flags ||| pteV⟩ : Pte)]).length = new.length + 1 := by
          rw [List.length_append, List.length_singleton]
        have hkeep : Same (tabs (pagesOf m Finset.univ old)) m m' := he'.same.mono hR
        rw [hnext, ← hlen]
        refine (ih (hold.same hkeep) ?_ ?_ h' (by omega) (by omega)).imp fun r m'' h'' => h''.cons he' hin hfree
        · rw [hkeep.pagesOf]
          exact hR
        · intro i hi
          obtain ⟨e', x', hi', hx', hwant'⟩ := hF i hi
          refine ⟨e', x', hi', hx', ?_⟩
          rw [hwant', he'.same.byte _ hx']
    · have hlen : new.length = N := by
        unfold npages at hN
        simp only [pgsize_eq] at hlt
        omega
      rw [if_neg hlt]
      exact hdone h hlen

theorem ends_uvmcopy (hold : Table Finset.univ F m old) (hR : tabs (pagesOf m Finset.univ old) ≤ R)
    (hF : ∀ i, i < npages sz → ∃ e x, F i = some e ∧ (e.page, x) ∈ R ∧ want i = (e.flags, m.byte e.page))
    (h : Pair board m₀ K f g u k R m) :
    (uvmcopy board old u k sz).Ends G E m (AllOrNone board m₀ K f g u k R 0 (npages sz) want (-1) 0 [] m) := by
  have hloop := ends_copyLoop (E := E) hm hG hok hK hf hg rfl (sz / pgsize + 1) hold hR hF (Mapped.nil h)
    (Nat.zero_le _) ?_
  · rw [List.length_nil, Nat.zero_mul] at hloop
    exact hloop
  · unfold npages
    simp only [pgsize_eq, List.length_nil]
    omega

end Copy
end Ends
end Farron.Memory
