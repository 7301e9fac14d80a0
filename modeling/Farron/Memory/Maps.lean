import Farron.Memory.Tables

/-! A page table is a finite map.

This is about a page table on its own, wherever its pages come from: a tree whose pages are
reached once each (`Tree`), next to an allocator that has none of them on its free list
(`Supplied`). `leaves` is the map it stands for and `leafAt` what `walk` finds, which is the
same. What `walk` hangs into the tree comes off the free list and maps nothing (`Hung`): going
down one level, the tree gains what the page table below gains. So `mappages` changes the map
in its range only, and `vmunmap` takes a range out of it. -/
namespace Farron.Memory
open Resumption Radix

/-- All entries of every page. Irreducible, for what is said of it. -/
@[irreducible] def whole : Nat → Finset (Fin 512) := within Finset.univ

theorem whole_eq : whole = within Finset.univ := by
  unfold whole
  rfl

/-- The page table of height `l` at `p`, each of its pages reached once. -/
structure Tree (l : Nat) (p : Page) (m : Ram) : Prop where
  shape : Shape whole m.heap l p
  distinct : (nodes whole m.heap l p).Nodup

/-- What `kalloc` may hand out: every page once, at a physical address, and none of the page table. -/
structure Supplied (l : Nat) (p : Page) (m : Ram) : Prop extends Tree l p m where
  once : m.free.Nodup
  apart : ∀ x ∈ m.free, x ∉ nodes whole m.heap l p
  physical : ∀ x ∈ m.free, x < 2 ^ 52

/-- The pages `new` have come off the free list and into the page table, and no other page has changed. -/
structure Hung (l : Nat) (p : Page) (new : List Page) (m m' : Ram) : Prop where
  shape : Shape whole m'.heap l p
  nodes : nodes whole m'.heap l p = new + nodes whole m.heap l p
  free : m.free = new ++ m'.free
  other : ∀ x, x ∉ Radix.nodes whole m.heap l p → x ∉ new → m'.byte x = m.byte x

/-- The leaf that page number `v` is mapped to. -/
def leaves (m : Ram) (root : Page) (v : Nat) : Option Pte := find m.heap 2 root (px (v * pgsize))

/-- The leaf that `walk` with `alloc = 0` finds. -/
def leafAt (m : Ram) (root va : Nat) : Option Pte :=
  match (walk root va false).run m with
  | .done (some slot) _ => (entry (m.pte slot.1 slot.2)).leaf?
  | _ => none

variable {board : Board} {m m' m'' : Ram} {l n v w va perm rounds : Nat} {p q root : Page} {pa : Nat}
  {new new' : List Page} {i : Fin 512}

theorem path_whole (a : Nat → Fin 512) : Path whole a := by
  intro k
  rw [whole_eq, within, ite_self]
  exact Finset.mem_univ _

theorem mem_whole (k : Nat) : i ∈ whole k := path_whole (fun _ => i) k

/-- Nothing is said about the sections, so any board and any memory will do. -/
theorem allows_all (m : Ram) : Allows ⟨0, 0, 0⟩ m (fun _ _ => True) fun _ => True :=
  ⟨fun _ => trivial, fun _ _ _ _ _ _ => trivial⟩

/-! ### Trees -/

theorem Tree.table (h : Tree 2 root m) : Table Finset.univ (leaves m root) m root := by
  have hshape := h.shape
  rw [whole_eq] at hshape
  exact ⟨hshape, fun _ _ _ => rfl⟩

/-- The page table that an entry names. -/
theorem Supplied.down (h : Supplied (l + 1) p m) (hq : m.heap p i = .table q) : Supplied l q m := by
  have hi := mem_whole (i := i) (l + 1)
  obtain ⟨-, -, hn, -⟩ := nodup_split hi h.distinct
  have hfit := (shape_succ l p).mp h.shape i hi
  rw [hq] at hn hfit
  refine ⟨⟨hfit, hn⟩, h.once, fun x hx hxq => h.apart x hx ?_, h.physical⟩
  exact mem_nodes_below hi (by rw [hq]; exact hxq)

namespace Hung

theorem refl (h : Shape whole m.heap l p) : Hung l p [] m m :=
  ⟨h, (zero_add _).symm, rfl, fun _ _ _ => rfl⟩

theorem trans (h : Hung l p new m m') (h' : Hung l p new' m' m'') : Hung l p (new ++ new') m m'' := by
  constructor
  · exact h'.shape
  · rw [h'.nodes, h.nodes, ← add_assoc, add_comm (new' : Multiset Page), Multiset.coe_add]
  · rw [h.free, h'.free, List.append_assoc]
  · intro x hx hnew
    rw [List.mem_append, not_or] at hnew
    rw [h'.other x ?_ hnew.2, h.other x hx hnew.1]
    rw [h.nodes, Multiset.mem_add, not_or]
    exact ⟨hnew.1, hx⟩

/-- The page table is one again that the allocator has no page of. -/
theorem supplied (h : Hung l p new m m') (hm : Supplied l p m) : Supplied l p m' := by
  have honce := hm.once
  rw [h.free, List.nodup_append] at honce
  obtain ⟨hnew, hfree, hdis⟩ := honce
  have hmem : ∀ x ∈ m'.free, x ∈ m.free := by
    intro x hx
    rw [h.free]
    exact List.mem_append_right new hx
  have hapart : ∀ x ∈ new, x ∉ Radix.nodes whole m.heap l p := by
    intro x hx
    apply hm.apart x
    rw [h.free]
    exact List.mem_append_left _ hx
  refine ⟨⟨h.shape, ?_⟩, hfree, ?_, fun x hx => hm.physical x (hmem x hx)⟩
  · rw [h.nodes, Multiset.nodup_add]
    exact ⟨hnew, hm.distinct, Multiset.disjoint_left.mpr fun hx => hapart _ hx⟩
  · intro x hx
    rw [h.nodes, Multiset.mem_add, not_or]
    exact ⟨fun hxn => hdis x hxn x hx rfl, hm.apart x (hmem x hx)⟩

theorem heap_of_other (h : Hung l p new m m') {x : Page} (hx : x ∉ Radix.nodes whole m.heap l p) (hnew : x ∉ new) :
    m'.heap x = m.heap x := Ram.heap_congr (h.other x hx hnew)

/-- What is hung into a page table below is outside the page and its other entries. -/
theorem root_turn (h : Hung l q new m m') (hm : Supplied (l + 1) p m) (hq : m.heap p i = .table q) :
    m'.heap p = m.heap p ∧ Turn whole m.heap m'.heap l p i := by
  have hi := mem_whole (i := i) (l + 1)
  obtain ⟨hpb, -, -, hdis⟩ := nodup_split hi hm.distinct
  rw [hq, below_table] at hpb hdis
  have hfresh : ∀ x ∈ Radix.nodes whole m.heap (l + 1) p, x ∉ new := by
    intro x hx hnew
    apply hm.apart x _ hx
    rw [h.free]
    exact List.mem_append_left _ hnew
  have hroot : m'.heap p = m.heap p := h.heap_of_other hpb (hfresh p (mem_nodes_self _ _))
  refine ⟨hroot, Turn.of_same hroot fun x hx => h.heap_of_other ?_ (hfresh x ?_)⟩
  · exact fun hxq => Multiset.disjoint_left.mp hdis hxq hx
  · rw [nodes_split hi]
    exact Multiset.mem_cons_of_mem (Multiset.mem_add.mpr (.inr hx))

/-- A tree gains what a page table in it gains. -/
theorem up (h : Hung l q new m m') (hm : Supplied (l + 1) p m) (hq : m.heap p i = .table q) :
    Hung (l + 1) p new m m' := by
  have hi := mem_whole (i := i) (l + 1)
  obtain ⟨hroot, hturn⟩ := h.root_turn hm hq
  have hq' : m'.heap p i = .table q := by
    rw [hroot]
    exact hq
  constructor
  · apply hturn.shape hm.shape
    rw [hq']
    exact h.shape
  · rw [hturn.nodes hi, nodes_split hi, hq', hq, below_table, below_table, h.nodes, Multiset.add_cons, add_assoc]
  · exact h.free
  · intro x hx hnew
    apply h.other x _ hnew
    exact fun hxq => hx (mem_nodes_below hi (by rw [hq]; exact hxq))

/-- And so does what it maps. -/
theorem find_up (h : Hung l q new m m') (hm : Supplied (l + 1) p m) (hq : m.heap p i = .table q)
    (hfind : ∀ b, find m'.heap l q b = find m.heap l q b) (b : Nat → Fin 512) :
    find m'.heap (l + 1) p b = find m.heap (l + 1) p b := by
  obtain ⟨hroot, hturn⟩ := h.root_turn hm hq
  by_cases hbi : b (l + 1) = i
  · have hb : m.heap p (b (l + 1)) = .table q := by
      rw [hbi]
      exact hq
    rw [find_table hb, find_table (by rw [hroot]; exact hb)]
    exact hfind b
  · exact hturn.find (path_whole b) hbi

end Hung

/-! ### walk -/

/-- The first page of the free list, zeroed, is named by an empty entry of the root. -/
def hang (m : Ram) (p q : Page) (i : Fin 512) : Ram :=
  ((m.pop .table).write q fun _ => 0).setPte p i (pa2pte q ||| pteV)

section Hang
variable {rest : List Page} (hm : Supplied (l + 1) p m) (hf : m.free = q :: rest) (hi : m.heap p i = .empty)
include hf

theorem hang_free : (hang m p q i).free = rest := by
  show (m.pop .table).free = rest
  unfold Ram.pop
  rw [hf]

theorem hang_byte {x : Page} (hp : x ≠ p) (hq : x ≠ q) : (hang m p q i).byte x = m.byte x := by
  have hpop : (m.pop .table).byte x = m.byte x := by
    unfold Ram.pop
    rw [hf]
    exact Function.update_of_ne hq _ _
  rw [hang, Ram.setPte, Ram.write_byte_ne _ _ hp, Ram.write_byte_ne _ _ hq, hpop]

include hm in
theorem hang_ne : q ∉ nodes whole m.heap (l + 1) p ∧ p ≠ q := by
  have hq : q ∉ nodes whole m.heap (l + 1) p := by
    apply hm.apart q
    rw [hf]
    exact List.mem_cons_self
  exact ⟨hq, fun hpq => hq (hpq ▸ mem_nodes_self _ _)⟩

include hm hi in
theorem hang_link : Link whole m.heap (hang m p q i).heap l p q i := by
  obtain ⟨hq, hpq⟩ := hang_ne hm hf
  have hlt : q < 2 ^ 52 := by
    apply hm.physical q
    rw [hf]
    exact List.mem_cons_self
  have hroot : ((m.pop .table).write q fun _ => 0).heap p = m.heap p := by
    apply Ram.heap_congr
    rw [Ram.write_byte_ne _ _ hpq]
    unfold Ram.pop
    rw [hf]
    exact Function.update_of_ne hpq _ _
  constructor
  · exact mem_whole (l + 1)
  · exact hi
  · exact hm.distinct
  · exact hq
  · rw [hang, Ram.heap_setPte _ p i (pte_word hlt (by decide)).2.2, entry_word_table hlt, hroot]
  · intro j
    rw [hang, Ram.heap_setPte_ne _ _ _ hpq.symm]
    exact Ram.heap_zero _ (Ram.write_byte _ _ _) j
  · intro x hx hxp
    exact Ram.heap_congr (hang_byte hf hxp fun hxq => hq (hxq ▸ hx))

include hm hi in
theorem Hung.hang : Hung (l + 1) p [q] m (hang m p q i) := by
  have hlink := hang_link hm hf hi
  constructor
  · exact hlink.shape hm.shape
  · rw [hlink.nodes, Multiset.coe_singleton, Multiset.singleton_add]
  · rw [hf, hang_free hf, List.singleton_append]
  · intro x hx hxq
    apply hang_byte hf
    · exact fun hxp => hx (hxp ▸ mem_nodes_self _ _)
    · exact fun h => hxq (List.mem_singleton.mpr h)

end Hang

abbrev Done {α : Type} (p : Vm α) (m : Ram) (Q : α → Ram → Prop) : Prop :=
  p.Ends (fun _ _ => True) (fun _ => False) m Q

/-- `kalloc`, and what follows it. -/
theorem done_kalloc {α : Type} {k : Option Page → Vm α} {u : Use} {Q : α → Ram → Prop}
    (hnone : m.free = [] → Done (k none) m Q)
    (hsome : ∀ q rest, m.free = q :: rest → Done (k (some q)) (m.pop u) Q) : Done (kalloc u >>= k) m Q := by
  refine ⟨trivial, m.pop u, rfl, ?_⟩
  show Done (k m.free.head?) (m.pop u) Q
  cases hf : m.free with
  | nil =>
    have hpop : m.pop u = m := by
      unfold Ram.pop
      rw [hf]
    rw [hpop]
    exact hnone hf
  | cons q rest => exact hsome q rest hf

/-- `walk` with `alloc = 0` changes nothing, whatever the memory holds. -/
theorem run_walkFrom (va l : Nat) (p : Page) (m : Ram) : ∃ r, (walkFrom va false l p).run m = .done r m := by
  induction l generalizing p with
  | zero => exact ⟨_, rfl⟩
  | succ l ih =>
    have hload : (loadPte (p, px va (l + 1))).run m = .done (m.pte p (px va (l + 1))) m := rfl
    rw [walkFrom, Prog.run_bind_done hload]
    by_cases hv : isValid (m.pte p (px va (l + 1))) = true
    · rw [if_pos hv]
      exact ih _
    · rw [if_neg hv]
      exact ⟨none, rfl⟩

theorem run_walk (hva : va < maxva) (root : Page) (m : Ram) : ∃ r, (walk root va false).run m = .done r m := by
  unfold walk
  rw [if_neg (Nat.not_le.mpr hva)]
  exact run_walkFrom va 2 root m

/-- `walk` with `alloc = 1`. -/
theorem done_walkFrom (va : Nat) (hm : Supplied l p m) :
    Done (walkFrom va true l p) m fun r m' =>
      r = (node? m'.heap l p (px va)).map (fun q => (q, px va 0)) ∧
        (∀ b, find m'.heap l p b = find m.heap l p b) ∧ ∃ new, Hung l p new m m' := by
  induction l generalizing p m with
  | zero => exact ⟨rfl, fun _ => rfl, [], Hung.refl hm.shape⟩
  | succ l ih =>
    -- the walk goes on in the page table `q` that the entry names
    have hdown : ∀ {q : Page} {m : Ram}, Supplied (l + 1) p m → m.heap p (px va (l + 1)) = .table q →
        Done (walkFrom va true l q) m fun r m' =>
          r = (node? m'.heap (l + 1) p (px va)).map (fun q => (q, px va 0)) ∧
            (∀ b, find m'.heap (l + 1) p b = find m.heap (l + 1) p b) ∧ ∃ new, Hung (l + 1) p new m m' := by
      intro q m hm hq
      refine (ih (hm.down hq)).imp fun r m' h => ?_
      obtain ⟨hr, hfind, new, hnew⟩ := h
      have hq' : m'.heap p (px va (l + 1)) = .table q := by
        rw [(hnew.root_turn hm hq).1]
        exact hq
      rw [node?_table hq']
      exact ⟨hr, hnew.find_up hm hq hfind, new, hnew.up hm hq⟩
    unfold walkFrom
    apply ends_loadPte (allows_all m)
    rcases pte_of_shape hm.shape (mem_whole (i := px va (l + 1)) (l + 1)) with ⟨hv, he⟩ | ⟨hv, -, he⟩
    · simp only [hv, Bool.false_eq_true, if_false, if_true]
      apply done_kalloc
      · intro hf
        refine ⟨?_, fun _ => rfl, [], Hung.refl hm.shape⟩
        simp only [node?, he, Option.map_none]
      · intro q rest hf
        have hhang := Hung.hang hm hf he
        have hlink := hang_link hm hf he
        apply Prog.Ends.change trivial
        apply ends_storePte (allows_all m)
        refine (hdown (hhang.supplied hm) hlink.entry).imp fun r m' h => ?_
        obtain ⟨hr, hfind, new, hnew⟩ := h
        exact ⟨hr, fun b => (hfind b).trans (hlink.find (path_whole b)), q :: new, hhang.trans hnew⟩
    · simp only [hv, if_true]
      exact hdown hm he

theorem done_walk_alloc (hva : va < maxva) (hm : Supplied 2 root m) :
    Done (walk root va true) m fun r m' =>
      r = (node? m'.heap 2 root (px va)).map (fun q => (q, px va 0)) ∧
        (∀ b, find m'.heap 2 root b = find m.heap 2 root b) ∧ ∃ new, Hung 2 root new m m' := by
  unfold walk
  rw [if_neg (Nat.not_le.mpr hva)]
  exact done_walkFrom va hm

/-! ### What walk finds -/

theorem px_page (va : Nat) {k : Nat} (hk : k ≤ 2) : px va k = px (va / pgsize * pgsize) k := by
  apply Fin.ext
  rw [px_val _ k hk]
  have h : k = 0 ∨ k = 1 ∨ k = 2 := by omega
  simp only [px, pgsize_eq]
  rcases h with rfl | rfl | rfl <;> norm_num <;> omega

theorem page_lt (hva : va < maxva) : va / pgsize < 2 ^ 26 := by
  simp only [maxva, pgsize_eq] at hva ⊢
  omega

/-- What `walk` finds is what the map says of the page. -/
theorem Tree.leafAt_eq (h : Tree 2 root m) (hva : va < maxva) : leafAt m root va = leaves m root (va / pgsize) := by
  have hpath : leaves m root (va / pgsize) = find m.heap 2 root (px va) :=
    find_path m.heap 2 root fun k hk => (px_page va hk).symm
  obtain ⟨r, m', hrun, rfl, rfl⟩ := (ends_walk (allows_all m) h.table hva (Finset.mem_univ _)).returns
  unfold leafAt
  rw [hrun, hpath]
  cases hq : node? m'.heap 2 root (px va) with
  | none => rw [find_of_not_node? hq, Option.map_none]
  | some q =>
    rw [find_of_node? hq]
    rfl

/-- A word is stored where `walk` points to. -/
theorem Tree.put (h : Tree 2 root m) (hv : v < 2 ^ 27) (hq : node? m.heap 2 root (px (v * pgsize)) = some q)
    (hw : w < 2 ^ 64) (he : ∀ r, entry w ≠ .table r) :
    Hung 2 root [] m (m.setPte q (px (v * pgsize) 0) w) ∧
      ∀ x, x < 2 ^ 27 →
        leaves (m.setPte q (px (v * pgsize) 0) w) root x = if x = v then (entry w).leaf? else leaves m root x := by
  have hput : Put whole m.heap (m.setPte q (px (v * pgsize) 0) w).heap 2 root q (px (v * pgsize)) (entry w) :=
    ⟨path_whole _, hq, h.distinct, m.heap_setPte q _ hw, fun x _ hx => m.heap_setPte_ne _ _ hx⟩
  refine ⟨⟨hput.shape h.shape he, ?_, rfl, fun x hx _ => ?_⟩, fun x hx => ?_⟩
  · rw [hput.nodes, Multiset.coe_nil, zero_add]
  · apply m.write_byte_ne
    exact fun hxq => hx (hxq ▸ node?_mem (path_whole _) hq)
  · unfold leaves
    rw [hput.find (path_whole _)]
    simp only [px_inj hv hx]

/-! ### mappages -/

/-- `n` pages from `v` on, mapped to the pages from `pa` on. -/
def mapRange (f : Nat → Option Pte) (v n pa flags x : Nat) : Option Pte :=
  if v ≤ x ∧ x < v + n then some ⟨pa + (x - v), flags⟩ else f x

theorem mapRange_zero (f : Nat → Option Pte) (v pa flags x : Nat) : mapRange f v 0 pa flags x = f x := by
  unfold mapRange
  rw [if_neg (by omega)]

/-- The first page, and then the others. -/
theorem mapRange_succ {f g : Nat → Option Pte} {flags x : Nat} (hg : g x = if x = v then some ⟨pa, flags⟩ else f x) :
    mapRange g (v + 1) n (pa + 1) flags x = mapRange f v (n + 1) pa flags x := by
  unfold mapRange
  by_cases hx : x = v
  · rw [if_neg (by omega), if_pos (by omega), hg, if_pos hx, hx, Nat.sub_self, Nat.add_zero]
  · by_cases hin : v + 1 ≤ x ∧ x < v + 1 + n
    · rw [if_pos hin, if_pos (by omega)]
      have hsum : pa + 1 + (x - (v + 1)) = pa + (x - v) := by omega
      rw [hsum]
    · rw [if_neg hin, if_neg (by omega), hg, if_neg hx]

/-- The flags of a leaf, with `PTE_V`. -/
theorem perm_word (hpa : pa < 2 ^ 52) (hperm : perm < 1024) (hleaf : isLeaf perm = true) :
    pa2pte pa ||| (perm ||| pteV) < 2 ^ 64 ∧ entry (pa2pte pa ||| (perm ||| pteV)) = .leaf ⟨pa, perm ||| pteV⟩ := by
  have hperm' : perm ||| pteV < 1024 := @Nat.or_lt_two_pow perm pteV 10 hperm (by decide)
  have hvalid : isValid (perm ||| pteV) = true := by simp [isValid, pteV]
  have hleaf' : isLeaf (perm ||| pteV) = true := by
    simp only [isLeaf, Nat.testBit_or, Bool.or_eq_true] at hleaf ⊢
    rcases hleaf with (h1 | h1) | h1 <;> simp [h1]
  exact ⟨(pte_word hpa hperm').2.2, entry_word_leaf hpa hperm' hvalid hleaf'⟩

/-- The loop stops at the first page for which there is no table page, and has mapped the `k` before it. -/
theorem done_mapLoop (hm : Supplied 2 root m) (hv : v + n < 2 ^ 26) (hr : n < rounds)
    (hf : ∀ x, v ≤ x → x ≤ v + n → leaves m root x = none) (hpa : pa + n < 2 ^ 52) (hperm : perm < 1024)
    (hleaf : isLeaf perm = true) :
    Done (mapLoop root ((v + n) * pgsize) perm rounds (v * pgsize) pa) m fun r m' =>
      ∃ k new, Hung 2 root new m m' ∧ k ≤ n + 1 ∧ r = (if k = n + 1 then 0 else -1) ∧
        ∀ x, x < 2 ^ 27 → leaves m' root x = mapRange (leaves m root) v k pa (perm ||| pteV) x := by
  induction rounds generalizing n v m pa with
  | zero => exact absurd hr (Nat.not_lt_zero n)
  | succ rounds ih =>
    have hv' : v < 2 ^ 27 := by omega
    unfold mapLoop
    apply (done_walk_alloc (lt_maxva (by omega)) hm).bind
    intro r m₁ h₁
    obtain ⟨rfl, hfind, new₁, hnew₁⟩ := h₁
    have hm₁ := hnew₁.supplied hm
    have hsame : ∀ x, leaves m₁ root x = leaves m root x := fun x => hfind _
    cases hq : node? m₁.heap 2 root (px (v * pgsize)) with
    | none =>
      refine ⟨0, new₁, hnew₁, Nat.zero_le _, (if_neg (by omega)).symm, fun x _ => ?_⟩
      rw [mapRange_zero, hsame]
    | some q =>
      have hinvalid := hm₁.table.isValid hv' (Finset.mem_univ _) hq
      rw [hsame, hf v (Nat.le_refl v) (by omega)] at hinvalid
      obtain ⟨hword, hentry⟩ := perm_word (by omega : pa < 2 ^ 52) hperm hleaf
      obtain ⟨hput, hleaves⟩ := hm₁.put hv' hq hword (by simp [hentry])
      rw [hentry] at hleaves
      have hnew₂ := hnew₁.trans hput
      simp only [Option.map_some]
      apply ends_loadPte (allows_all m)
      simp only [hinvalid, Option.isSome_none, Bool.false_eq_true, if_false]
      apply ends_storePte (allows_all m)
      have hstep : ∀ x, x < 2 ^ 27 → leaves (m₁.setPte q (px (v * pgsize) 0) (pa2pte pa ||| (perm ||| pteV))) root x =
          if x = v then some ⟨pa, perm ||| pteV⟩ else leaves m root x := by
        intro x hx
        rw [hleaves x hx, hsame]
        rfl
      cases n with
      | zero =>
        rw [Nat.add_zero, if_pos rfl]
        refine ⟨1, _, hnew₂, Nat.le_refl 1, rfl, fun x hx => ?_⟩
        rw [← mapRange_succ (n := 0) (hstep x hx), mapRange_zero]
      | succ n =>
        have hnot : v * pgsize ≠ (v + (n + 1)) * pgsize := by
          simp only [pgsize_eq]
          omega
        have hnext : u64 (v * pgsize + pgsize) = (v + 1) * pgsize := by
          simp only [u64, pgsize_eq]
          omega
        have hend : v + (n + 1) = v + 1 + n := by omega
        rw [if_neg hnot, hnext, hend]
        have hrest : ∀ x, v + 1 ≤ x → x ≤ v + 1 + n →
            leaves (m₁.setPte q (px (v * pgsize) 0) (pa2pte pa ||| (perm ||| pteV))) root x = none := by
          intro x hx hx'
          rw [hstep x (by omega), if_neg (by omega)]
          exact hf x (by omega) (by omega)
        refine (ih (hnew₂.supplied hm) (by omega) (by omega) hrest (by omega)).imp fun r m' h => ?_
        obtain ⟨k, new, hnew, hk, hr, hmap⟩ := h
        refine ⟨k + 1, _, hnew₂.trans hnew, by omega, ?_, fun x hx => ?_⟩
        · rw [hr]
          simp only [Nat.add_right_cancel_iff]
        · rw [hmap x hx, mapRange_succ (hstep x hx)]

/-- The page of address `a` is one of those that hold `size` bytes from `va` on. -/
def Covers (va size a : Nat) : Prop := va / pgsize ≤ a / pgsize ∧ a / pgsize ≤ (va + size - 1) / pgsize

theorem Covers.lt {size a : Nat} (h : Covers va size a) (hsize : 0 < size) (hend : va + size ≤ maxva) : a < maxva := by
  have h2 := h.2
  simp only [maxva, pgsize_eq] at hend h2 ⊢
  omega

/-- `mappages` on a range without leaves. -/
theorem done_mappages {size : Nat} (hm : Supplied 2 root m) (hsize : 0 < size) (hend : va + size ≤ maxva)
    (hpa : pa + ((va + size - 1) / pgsize - va / pgsize) < 2 ^ 52) (hperm : perm < 1024) (hleaf : isLeaf perm = true)
    (hf : ∀ a, Covers va size a → leafAt m root a = none) :
    Done (mappages root va size pa perm) m fun r m' =>
      (r = 0 ∨ r = -1) ∧
        (r = 0 → ∀ a, Covers va size a → leafAt m' root a = some ⟨pa + (a / pgsize - va / pgsize), perm ||| pteV⟩) ∧
        (∀ a, a < maxva → ¬ Covers va size a → leafAt m' root a = leafAt m root a) ∧
        Supplied 2 root m' ∧ ∃ new, Hung 2 root new m m' := by
  obtain ⟨n, hn⟩ : ∃ n, (va + size - 1) / pgsize = va / pgsize + n :=
    Nat.exists_eq_add_of_le (Nat.div_le_div_right (by omega))
  have hlast : pgrounddown (u64 (va + size + 2 ^ 64 - 1)) = (va / pgsize + n) * pgsize := by
    have hu : u64 (va + size + 2 ^ 64 - 1) = va + size - 1 := by
      simp only [u64, maxva] at hend ⊢
      omega
    rw [hu, pgrounddown, hn]
  have hv : va / pgsize + n < 2 ^ 26 := by
    rw [← hn]
    exact page_lt (by omega)
  have hcov : ∀ a, Covers va size a ↔ va / pgsize ≤ a / pgsize ∧ a / pgsize < va / pgsize + (n + 1) := by
    intro a
    unfold Covers
    rw [hn]
    omega
  have hnone : ∀ x, va / pgsize ≤ x → x ≤ va / pgsize + n → leaves m root x = none := by
    intro x hx hx'
    have hpage : x * pgsize / pgsize = x := Nat.mul_div_cancel x (by decide)
    have hat := hm.leafAt_eq (lt_maxva (by omega : x < 2 ^ 26))
    rw [hpage] at hat
    rw [← hat]
    apply hf
    rw [hcov, hpage]
    omega
  rw [hn, Nat.add_sub_cancel_left] at hpa
  unfold mappages
  rw [hlast]
  have hrounds : n < 2 ^ 26 + 1 := by
    have hle : n ≤ va / pgsize + n := Nat.le_add_left n _
    omega
  refine (done_mapLoop hm hv hrounds hnone hpa hperm hleaf).imp fun r m' h => ?_
  obtain ⟨k, new, hnew, hk, hr, hmap⟩ := h
  have hm' := hnew.supplied hm
  have hat : ∀ a, a < maxva →
      leafAt m' root a = mapRange (leaves m root) (va / pgsize) k pa (perm ||| pteV) (a / pgsize) := by
    intro a ha
    rw [hm'.leafAt_eq ha]
    exact hmap _ (Nat.lt_trans (page_lt ha) (by decide))
  refine ⟨?_, fun hzero a ha => ?_, fun a ha hout => ?_, hm', new, hnew⟩
  · rw [hr]
    split
    · exact .inl rfl
    · exact .inr rfl
  · have hall : k = n + 1 := by
      by_contra hne
      rw [hr, if_neg hne] at hzero
      cases hzero
    rw [hat a (ha.lt hsize hend), hall, mapRange, if_pos ((hcov a).mp ha)]
  · rw [hat a ha, hm.leafAt_eq ha, mapRange, if_neg]
    intro hin
    exact hout ((hcov a).mpr ⟨hin.1, by omega⟩)

/-! ### vmunmap -/

/-- The pages that `n` pages from `v` on are mapped to. -/
def pagesAt (f : Nat → Option Pte) (v n : Nat) : List Page := (List.range' v n).filterMap fun x => (f x).map Pte.page

theorem pagesAt_succ {f : Nat → Option Pte} {e : Pte} (he : f v = some e) :
    pagesAt f v (n + 1) = e.page :: pagesAt f (v + 1) n := by
  unfold pagesAt
  rw [List.range'_succ, List.filterMap_cons, he]
  rfl

theorem pagesAt_congr {f g : Nat → Option Pte} (h : ∀ x, v ≤ x → x < v + n → f x = g x) : pagesAt f v n = pagesAt g v n := by
  apply List.filterMap_congr
  intro x hx
  rw [List.mem_range'_1] at hx
  rw [h x hx.1 hx.2]

theorem erase_succ {f g : Nat → Option Pte} {x : Nat} (hg : g x = if x = v then none else f x) :
    erase g (v + 1) n x = erase f v (n + 1) x := by
  unfold erase
  by_cases hx : x = v
  · rw [if_neg (by omega), hg, if_pos hx, if_pos (by omega)]
  · by_cases hin : v + 1 ≤ x ∧ x < v + 1 + n
    · rw [if_pos hin, if_pos (by omega)]
    · rw [if_neg hin, hg, if_neg hx, if_neg (by omega)]

/-- What is given to `kfree` is a page that it takes and none of the page table. -/
def Freeable (board : Board) (m : Ram) (root p : Page) : Prop := board.managed p ∧ p ∉ nodes whole m.heap 2 root

/-- The pages `gone` were freed, if they were to be, and no other page outside the page table has changed. -/
structure Freed (root : Page) (doFree : Bool) (gone : List Page) (m m' : Ram) : Prop where
  tree : Tree 2 root m'
  nodes : nodes whole m'.heap 2 root = nodes whole m.heap 2 root
  free : m'.free = (if doFree then gone.reverse else []) ++ m.free
  other : ∀ x, x ∉ Radix.nodes whole m.heap 2 root → (doFree = true → x ∉ gone) → m'.byte x = m.byte x

namespace Freed
variable {doFree : Bool} {gone gone' : List Page}

theorem refl (doFree : Bool) (h : Tree 2 root m) : Freed root doFree [] m m :=
  ⟨h, rfl, by simp, fun _ _ _ => rfl⟩

theorem trans (h : Freed root doFree gone m m') (h' : Freed root doFree gone' m' m'') :
    Freed root doFree (gone ++ gone') m m'' := by
  constructor
  · exact h'.tree
  · rw [h'.nodes, h.nodes]
  · rw [h'.free, h.free]
    cases doFree with
    | false => rfl
    | true => simp only [if_true, List.reverse_append, List.append_assoc]
  · intro x hx hgone
    simp only [List.mem_append, not_or] at hgone
    rw [h'.other x (by rw [h.nodes]; exact hx) fun hd => (hgone hd).2]
    exact h.other x hx fun hd => (hgone hd).1

/-- The page that an entry names is freed. -/
theorem done_kfree (hm : Tree 2 root m) {p : Page} (hp : doFree = true → Freeable board m root p) :
    Done (if doFree then kfree board p else pure ()) m fun _ m' =>
      Freed root doFree [p] m m' ∧ ∀ x ∈ Radix.nodes whole m.heap 2 root, m'.heap x = m.heap x := by
  cases doFree with
  | false => exact ⟨⟨hm, rfl, rfl, fun _ _ _ => rfl⟩, fun _ _ => rfl⟩
  | true =>
    obtain ⟨hmanaged, hout⟩ := hp rfl
    have hheap : ∀ x ∈ Radix.nodes whole m.heap 2 root, (m.push p).heap x = m.heap x := fun x hx =>
      Ram.heap_congr (m.push_byte_ne fun hxp => hout (hxp ▸ hx))
    have hnodes := nodes_congr hheap
    simp only [if_true]
    unfold kfree
    rw [if_pos hmanaged]
    apply Prog.Ends.change_last trivial
    refine ⟨⟨⟨hm.shape.congr hheap, ?_⟩, hnodes, rfl, fun x _ hx => ?_⟩, hheap⟩
    · rw [hnodes]
      exact hm.distinct
    · exact m.push_byte_ne fun hxp => hx rfl (List.mem_singleton.mpr hxp)

end Freed

/-- The leaves of the range go, one after the other. -/
theorem done_unmapLoop {doFree : Bool} (hm : Tree 2 root m) (hv : v + n ≤ 2 ^ 26)
    (hf : ∀ x, v ≤ x → x < v + n → (leaves m root x).isSome)
    (hfree : doFree = true → ∀ x e, v ≤ x → x < v + n → leaves m root x = some e → Freeable board m root e.page) :
    Done (unmapLoop board root doFree n (v * pgsize)) m fun _ m' =>
      Freed root doFree (pagesAt (leaves m root) v n) m m' ∧
        ∀ x, x < 2 ^ 27 → leaves m' root x = erase (leaves m root) v n x := by
  induction n generalizing v m with
  | zero =>
    refine ⟨Freed.refl doFree hm, fun x _ => ?_⟩
    rw [erase, if_neg (by omega)]
  | succ n ih =>
    have hv' : v < 2 ^ 27 := by omega
    obtain ⟨e, he⟩ := Option.isSome_iff_exists.mp (hf v (Nat.le_refl v) (by omega))
    unfold unmapLoop
    apply ends_walk_some (allows_all m) hm.table (by omega) (Finset.mem_univ _) he
    intro q hq hent
    apply ends_loadPte (allows_all m)
    obtain ⟨hval, hleaf, hpa, -⟩ := entry_leaf hent
    simp only [hval, Bool.not_true, Bool.false_eq_true, if_false, pteFlags_ne_of_isLeaf hleaf, hpa]
    have hnext : u64 (v * pgsize + pgsize) = (v + 1) * pgsize := by
      simp only [u64, pgsize_eq]
      omega
    rw [hnext]
    apply (Freed.done_kfree hm fun hd => hfree hd v e (Nat.le_refl v) (by omega) he).bind
    intro _ m₁ h₁
    obtain ⟨hfreed, hheap⟩ := h₁
    have hq₁ : node? m₁.heap 2 root (px (v * pgsize)) = some q := by
      rw [node?_congr (path_whole _) hheap]
      exact hq
    obtain ⟨hput, hleaves⟩ := hfreed.tree.put (w := 0) hv' hq₁ (by decide) (by simp [entry_zero])
    rw [entry_zero, Entry.leaf?_empty] at hleaves
    apply ends_storePte (allows_all m)
    have hnodes : nodes whole (m₁.setPte q (px (v * pgsize) 0) 0).heap 2 root = nodes whole m₁.heap 2 root := by
      rw [hput.nodes, Multiset.coe_nil, zero_add]
    have hstored : Freed root doFree [] m₁ (m₁.setPte q (px (v * pgsize) 0) 0) := by
      refine ⟨⟨hput.shape, ?_⟩, hnodes, by simp, fun x hx _ => hput.other x hx (List.not_mem_nil)⟩
      rw [hnodes]
      exact hfreed.tree.distinct
    have hgone := hfreed.trans hstored
    have hsame : ∀ x, leaves m₁ root x = leaves m root x := fun x => find_congr (fun k _ => path_whole _ k) hheap
    have hstep : ∀ x, x < 2 ^ 27 →
        leaves (m₁.setPte q (px (v * pgsize) 0) 0) root x = if x = v then none else leaves m root x := by
      intro x hx
      rw [hleaves x hx, hsame]
    have hrest : ∀ x, v + 1 ≤ x → x < v + 1 + n →
        leaves (m₁.setPte q (px (v * pgsize) 0) 0) root x = leaves m root x := by
      intro x hx hx'
      rw [hstep x (by omega), if_neg (by omega)]
    refine (ih hgone.tree (by omega) ?_ ?_).imp fun _ m' h => ?_
    · intro x hx hx'
      rw [hrest x hx hx']
      exact hf x (by omega) (by omega)
    · intro hd x e' hx hx' he'
      rw [hrest x hx hx'] at he'
      obtain ⟨hman, hout⟩ := hfree hd x e' (by omega) (by omega) he'
      refine ⟨hman, ?_⟩
      rw [hgone.nodes]
      exact hout
    · obtain ⟨hfreed', hmap⟩ := h
      refine ⟨?_, fun x hx => ?_⟩
      · have hpages := pagesAt_succ (n := n) he
        rw [← pagesAt_congr hrest] at hpages
        rw [hpages]
        exact hgone.trans hfreed'
      · rw [hmap x hx, erase_succ (hstep x hx)]

/-- `vmunmap` of mapped pages. -/
theorem done_vmunmap {doFree : Bool} (hm : Tree 2 root m) (hv : v + n ≤ 2 ^ 26)
    (hf : ∀ x, v ≤ x → x < v + n → (leaves m root x).isSome)
    (hfree : doFree = true → ∀ x e, v ≤ x → x < v + n → leaves m root x = some e → Freeable board m root e.page) :
    Done (vmunmap board root (v * pgsize) n doFree) m fun _ m' =>
      Freed root doFree (pagesAt (leaves m root) v n) m m' ∧
        ∀ x, x < 2 ^ 27 → leaves m' root x = erase (leaves m root) v n x := by
  have halign : v * pgsize % pgsize = 0 := Nat.mul_mod_left _ _
  have hrounds : (u64 (v * pgsize + n * pgsize) - v * pgsize + pgsize - 1) / pgsize = n := by
    simp only [u64, pgsize_eq]
    omega
  unfold vmunmap
  rw [if_neg (by rw [halign]; exact fun h => h rfl), hrounds]
  exact done_unmapLoop hm hv hf hfree

/-! ### The finite map -/

/-- Each of the new pages is reached once. -/
theorem Hung.once (h : Hung l p new m m') (hm : Supplied l p m) {x : Page} (hx : x ∈ new) :
    (Radix.nodes whole m'.heap l p).count x = 1 := by
  apply Multiset.count_eq_one_of_mem (h.supplied hm).distinct
  rw [h.nodes]
  exact Multiset.mem_add.mpr (.inl hx)

/-- What it means that the page table at `root` is a finite map from addresses to leaves: what `walk`, `mappages` and
`vmunmap` do to it, from this memory. -/
structure FiniteMap (board : Board) (root : Page) (m : Ram) : Prop where
  look : ∀ va, va < maxva → ∃ r, (walk root va false).run m = .done r m
  hang : Supplied 2 root m → ∀ va, va < maxva →
    ∃ r m' new, (walk root va true).run m = .done r m' ∧ (∀ a, a < maxva → leafAt m' root a = leafAt m root a) ∧
      Hung 2 root new m m' ∧ ∀ x ∈ new, (nodes whole m'.heap 2 root).count x = 1
  map : Supplied 2 root m → ∀ va size pa perm, 0 < size → va + size ≤ maxva →
    pa + ((va + size - 1) / pgsize - va / pgsize) < 2 ^ 52 → perm < 1024 → isLeaf perm = true →
    (∀ a, Covers va size a → leafAt m root a = none) →
    ∃ r m' new, (mappages root va size pa perm).run m = .done r m' ∧ (r = 0 ∨ r = -1) ∧
      (r = 0 → ∀ a, Covers va size a → leafAt m' root a = some ⟨pa + (a / pgsize - va / pgsize), perm ||| pteV⟩) ∧
      (∀ a, a < maxva → ¬ Covers va size a → leafAt m' root a = leafAt m root a) ∧
      Hung 2 root new m m' ∧ ∀ x ∈ new, (nodes whole m'.heap 2 root).count x = 1
  unmap : ∀ va n doFree, va % pgsize = 0 → va + n * pgsize ≤ maxva →
    (∀ a, va ≤ a → a < va + n * pgsize → (leafAt m root a).isSome) →
    (doFree = true → ∀ a e, va ≤ a → a < va + n * pgsize → leafAt m root a = some e → Freeable board m root e.page) →
    ∃ m', (vmunmap board root va n doFree).run m = .done () m' ∧
      (∀ a, a < maxva → leafAt m' root a = if va ≤ a ∧ a < va + n * pgsize then none else leafAt m root a) ∧
      Freed root doFree (pagesAt (leaves m root) (va / pgsize) n) m m'

theorem Supplied.hang (hm : Supplied 2 root m) (hva : va < maxva) :
    ∃ r m' new, (walk root va true).run m = .done r m' ∧ (∀ a, a < maxva → leafAt m' root a = leafAt m root a) ∧
      Hung 2 root new m m' ∧ ∀ x ∈ new, (nodes whole m'.heap 2 root).count x = 1 := by
  obtain ⟨r, m', hrun, -, hfind, new, hnew⟩ := (done_walk_alloc hva hm).returns
  refine ⟨r, m', new, hrun, fun a ha => ?_, hnew, fun x hx => hnew.once hm hx⟩
  rw [(hnew.supplied hm).leafAt_eq ha, hm.leafAt_eq ha]
  exact hfind _

theorem Tree.unmap {doFree : Bool} (h : Tree 2 root m) (halign : va % pgsize = 0) (hend : va + n * pgsize ≤ maxva)
    (hf : ∀ a, va ≤ a → a < va + n * pgsize → (leafAt m root a).isSome)
    (hfree : doFree = true →
      ∀ a e, va ≤ a → a < va + n * pgsize → leafAt m root a = some e → Freeable board m root e.page) :
    ∃ m', (vmunmap board root va n doFree).run m = .done () m' ∧
      (∀ a, a < maxva → leafAt m' root a = if va ≤ a ∧ a < va + n * pgsize then none else leafAt m root a) ∧
      Freed root doFree (pagesAt (leaves m root) (va / pgsize) n) m m' := by
  obtain ⟨v, rfl⟩ : ∃ v, va = v * pgsize := ⟨va / pgsize, by simp only [pgsize_eq] at halign ⊢; omega⟩
  have hpage : ∀ x, x * pgsize / pgsize = x := fun x => Nat.mul_div_cancel x (by decide)
  have hv : v + n ≤ 2 ^ 26 := by
    simp only [maxva, pgsize_eq] at hend
    omega
  have hat : ∀ x, x < v + n → leafAt m root (x * pgsize) = leaves m root x := by
    intro x hx
    rw [h.leafAt_eq (lt_maxva (by omega)), hpage]
  have hin : ∀ x, v ≤ x → x < v + n → v * pgsize ≤ x * pgsize ∧ x * pgsize < v * pgsize + n * pgsize := by
    intro x hx hx'
    simp only [pgsize_eq]
    omega
  have hsome : ∀ x, v ≤ x → x < v + n → (leaves m root x).isSome := by
    intro x hx hx'
    rw [← hat x hx']
    exact hf _ (hin x hx hx').1 (hin x hx hx').2
  have hfree' : doFree = true → ∀ x e, v ≤ x → x < v + n → leaves m root x = some e → Freeable board m root e.page := by
    intro hd x e hx hx' he
    rw [← hat x hx'] at he
    exact hfree hd _ e (hin x hx hx').1 (hin x hx hx').2 he
  obtain ⟨_, m', hrun, hfreed, hmap⟩ := (done_vmunmap h hv hsome hfree').returns
  refine ⟨m', hrun, fun a ha => ?_, ?_⟩
  · have hiff : (v ≤ a / pgsize ∧ a / pgsize < v + n) ↔ (v * pgsize ≤ a ∧ a < v * pgsize + n * pgsize) := by
      simp only [pgsize_eq]
      omega
    rw [hfreed.tree.leafAt_eq ha, hmap _ (Nat.lt_trans (page_lt ha) (by decide)), erase, h.leafAt_eq ha]
    simp only [hiff]
  · rw [hpage]
    exact hfreed

/-- A page table whose pages are reached once each is a finite map. -/
theorem pagetable_map (board : Board) (h : Tree 2 root m) : FiniteMap board root m where
  look := fun va hva => run_walk hva root m
  hang := fun hm va hva => hm.hang hva
  map := by
    intro hm va size pa perm hsize hend hpa hperm hleaf hf
    obtain ⟨r, m', hrun, hr, hin, hout, -, new, hnew⟩ :=
      (done_mappages hm hsize hend hpa hperm hleaf hf).returns
    exact ⟨r, m', new, hrun, hr, hin, hout, hnew, fun x hx => hnew.once hm hx⟩
  unmap := fun va n doFree halign hend hf hfree => h.unmap halign hend hf hfree

/-- Zeroed memory with the three pages of a path free. -/
def blankRam : Ram := { free := [1, 2, 3], byte := fun _ _ => 0, kern := fun _ => 0, use := fun _ => .boot }

theorem blankRam_blank (i : Fin 512) : blankRam.heap 0 i = .empty := blankRam.heap_zero rfl i

theorem blankRam_supplied : Supplied 2 0 blankRam := by
  have hnodes : nodes whole blankRam.heap 2 0 = {0} := nodes_blank blankRam_blank 2
  refine ⟨⟨shape_blank blankRam_blank 2, ?_⟩, by decide, fun x hx => ?_, by decide⟩
  · rw [hnodes]
    exact Multiset.nodup_singleton 0
  · rw [hnodes, Multiset.mem_singleton]
    revert x
    decide

/-- A page is mapped, and unmapped again. -/
theorem pagetable_map_blankRam : ∃ m m', (mappages 0 4096 4096 5 (pteR ||| pteW)).run blankRam = .done 0 m ∧
    FiniteMap ⟨0, 0, 0⟩ 0 m ∧ leafAt m 0 4096 = some ⟨5, pteR ||| pteW ||| pteV⟩ ∧
    (vmunmap ⟨0, 0, 0⟩ 0 4096 1 false).run m = .done () m' ∧ leafAt m' 0 4096 = none := by
  have hblank := pagetable_map ⟨0, 0, 0⟩ blankRam_supplied.toTree
  have hfree : ∀ a, Covers 4096 4096 a → leafAt blankRam 0 a = none := by
    intro a ha
    rw [blankRam_supplied.leafAt_eq (ha.lt (by decide) (by decide))]
    exact find_blank blankRam_blank 2 _
  have hcovers : ∀ a, 4096 ≤ a → a < 4096 + 1 * pgsize → Covers 4096 4096 a := by
    intro a hlow hhigh
    unfold Covers
    rw [pgsize_eq] at hhigh ⊢
    omega
  obtain ⟨r, m, new, hrun, -, hmapped, -, hhung, -⟩ :=
    hblank.map blankRam_supplied 4096 4096 5 (pteR ||| pteW) (by decide) (by decide) (by decide) (by decide) rfl hfree
  have hret : ((mappages 0 4096 4096 5 (pteR ||| pteW)).run blankRam).value? = some 0 := by decide +kernel
  obtain rfl : r = 0 := by
    rw [hrun] at hret
    exact Option.some.inj hret
  have hmap : FiniteMap ⟨0, 0, 0⟩ 0 m := pagetable_map _ (hhung.supplied blankRam_supplied).toTree
  have hleaf := hmapped rfl
  obtain ⟨m', hrun', hgone, -⟩ := hmap.unmap 4096 1 false rfl (by decide)
    (fun a hlow hhigh => by rw [hleaf a (hcovers a hlow hhigh)]; rfl) fun h => absurd h (by decide)
  exact ⟨m, m', hrun, hmap, hleaf 4096 (hcovers 4096 (by decide) (by decide)), hrun', hgone 4096 (by decide)⟩

end Farron.Memory
