import Farron.Memory.Books

/-! What a walk does to a page table.

A walk that may allocate hangs empty pages into the tree and changes nothing that the tree
maps (`Grown`): going down one level, the page table it goes on in is a tree of its own, and
the rest of the tree is among the pages left alone (`Grown.up`). It fails only if fewer pages
are free than the path still needs. A walk that may not allocate changes nothing. -/
namespace Farron.Memory
open Resumption Radix

variable {board : Board} {m₀ m m' m'' : Ram} {R : Multiset (Page × Use)} {S : Nat → Finset (Fin 512)}
  {l : Nat} {p q : Page} {i : Fin 512}

/-- In page tables above the last level, a valid entry names a page table. -/
theorem pte_of_shape (hs : Shape S m.heap (l + 1) p) (hi : i ∈ S (l + 1)) :
    (isValid (m.pte p i) = false ∧ m.heap p i = .empty) ∨
      (isValid (m.pte p i) = true ∧ isLeaf (m.pte p i) = false ∧ m.heap p i = .table (pte2pa (m.pte p i))) := by
  have hfit := (shape_succ l p).mp hs i hi
  cases he : m.heap p i with
  | empty => exact .inl ⟨entry_empty.mp he, rfl⟩
  | table q =>
    obtain ⟨hv, hl, hq⟩ := entry_table he
    exact .inr ⟨hv, hl, by rw [hq]⟩
  | leaf e => exact absurd hfit (by rw [he]; exact id)

/-- The books, with the page table under one entry of the root set apart. -/
theorem Books.split (hi : i ∈ S (l + 1)) (hq : m.heap p i = .table q) :
    tabs (nodes S m.heap (l + 1) p) + R =
      tabs (nodes S m.heap l q) + ((p, .table) ::ₘ (tabs (siblings S m.heap l p i) + R)) := by
  rw [nodes_split hi, hq, below_table, tabs_cons, tabs_add, Multiset.cons_add, Multiset.add_cons, add_assoc]

/-- Pages were hung into the tree at `p`, below its entry `i`, and nothing else. -/
structure Grown (board : Board) (m₀ : Ram) (S : Nat → Finset (Fin 512)) (l : Nat) (p : Page) (i : Fin 512)
    (R : Multiset (Page × Use)) (m m' : Ram) : Prop where
  shape : Shape S m'.heap l p
  find : ∀ b, Path S b → find m'.heap l p b = find m.heap l p b
  books : Books board m₀ (tabs (nodes S m'.heap l p) + R) m'
  same : Same R m m'
  row : ∀ j, j ≠ i → m'.heap p j = m.heap p j

theorem Grown.refl (hs : Shape S m.heap l p) (hb : Books board m₀ (tabs (nodes S m.heap l p) + R) m) :
    Grown board m₀ S l p i R m m :=
  ⟨hs, fun _ _ => rfl, hb, Same.refl R m, fun _ _ => rfl⟩

theorem Grown.trans (h : Grown board m₀ S l p i R m m') (h' : Grown board m₀ S l p i R m' m'') :
    Grown board m₀ S l p i R m m'' :=
  ⟨h'.shape, fun b hb => (h'.find b hb).trans (h.find b hb), h'.books, h.same.trans h'.same,
    fun j hj => (h'.row j hj).trans (h.row j hj)⟩

/-- A tree grows by what a page table in it grows. -/
theorem Grown.up {j : Fin 512} (hi : i ∈ S (l + 1)) (hq : m.heap p i = .table q) (hs : Shape S m.heap (l + 1) p)
    (h : Grown board m₀ S l q j ((p, .table) ::ₘ (tabs (siblings S m.heap l p i) + R)) m m') :
    Grown board m₀ S (l + 1) p i R m m' := by
  have hroot : m'.heap p = m.heap p := h.same.heap (Multiset.mem_cons_self _ _)
  have hturn : Turn S m.heap m'.heap l p i :=
    Turn.of_same hroot fun x hx => h.same.tail.left.tabs_heap hx
  have hq' : m'.heap p i = .table q := by
    rw [hroot]
    exact hq
  constructor
  · apply hturn.shape hs
    rw [hq']
    exact h.shape
  · intro b hb
    by_cases hbi : b (l + 1) = i
    · rw [find_table (hbi ▸ hq' : m'.heap p (b (l + 1)) = _), find_table (hbi ▸ hq : m.heap p (b (l + 1)) = _)]
      exact h.find b hb
    · exact hturn.find hb hbi
  · refine h.books.congr ?_
    rw [Books.split hi hq', hturn.siblings]
  · exact h.same.tail.right
  · intro j _
    rw [hroot]

/-- An empty page is hung into the root. -/
theorem Grown.link (hm : Stocked board m₀) (hi : i ∈ S (l + 1)) (hp : m.heap p i = .empty)
    (hs : Shape S m.heap (l + 1) p) (hsame : Same (tabs (nodes S m.heap (l + 1) p) + R) m m')
    (hb : Books board m₀ ((q, .table) ::ₘ (tabs (nodes S m.heap (l + 1) p) + R)) m') (hq : m'.byte q = fun _ => 0) :
    Grown board m₀ S (l + 1) p i R m (m'.setPte p i (pa2pte q ||| pteV)) ∧
      (m'.setPte p i (pa2pte q ||| pteV)).heap p i = .table q ∧
      ∀ j, (m'.setPte p i (pa2pte q ||| pteV)).heap q j = .empty := by
  have hlt : q < 2 ^ 52 := (hb.managed hm (Multiset.mem_cons_self _ _)).lt
  have hpn : p ∈ nodes S m.heap (l + 1) p := mem_nodes_self _ _
  have hmem : ∀ x ∈ nodes S m.heap (l + 1) p, (x, Use.table) ∈ tabs (nodes S m.heap (l + 1) p) + R :=
    fun x hx => Multiset.mem_add.mpr (.inl (mem_tabs.mpr ⟨hx, rfl⟩))
  have hnew : ∀ x ∈ nodes S m.heap (l + 1) p, x ≠ q := fun x hx => hb.ne hm (hmem x hx)
  have hown : (q, Use.table) ::ₘ (tabs (nodes S m.heap (l + 1) p) + R) =
      (p, .table) ::ₘ ((q, .table) ::ₘ (tabs (∑ j ∈ S (l + 1), below S m.heap l (m.heap p j)) + R)) := by
    rw [nodes_succ, tabs_cons, Multiset.cons_add, Multiset.cons_swap]
  obtain ⟨hb', hsame'⟩ := (hb.congr hown).write hm (putWord64 (8 * i) (pa2pte q ||| pteV) (m'.byte p))
  have hother : ∀ x ∈ nodes S m.heap (l + 1) p, x ≠ p → (m'.setPte p i (pa2pte q ||| pteV)).heap x = m.heap x := by
    intro x hx hxp
    rw [m'.heap_setPte_ne _ _ hxp]
    exact hsame.heap (hmem x hx)
  have hblank : ∀ j, (m'.setPte p i (pa2pte q ||| pteV)).heap q j = .empty := by
    intro j
    rw [m'.heap_setPte_ne _ _ (hnew p hpn).symm]
    exact m'.heap_zero hq j
  have hrow : (m'.setPte p i (pa2pte q ||| pteV)).heap p = Function.update (m.heap p) i (.table q) := by
    rw [m'.heap_setPte p i (pte_word hlt (by decide)).2.2, entry_word_table hlt, hsame.heap (hmem p hpn)]
  have hnodup : (nodes S m.heap (l + 1) p).Nodup := by
    have hb'' := hb.congr (Multiset.cons_add _ _ _).symm
    have hn := hb''.congr (by rw [← tabs_cons]) |>.nodup_tabs hm
    exact (Multiset.nodup_cons.mp hn).2
  have hlink : Link S m.heap (m'.setPte p i (pa2pte q ||| pteV)).heap l p q i :=
    ⟨hi, hp, hnodup, fun hqn => hnew q hqn rfl, hrow, hblank, hother⟩
  refine ⟨⟨hlink.shape hs, fun b hb => hlink.find hb, ?_, ?_, ?_⟩, hlink.entry, hblank⟩
  · refine hb'.congr ?_
    rw [hlink.nodes, tabs_cons, Multiset.cons_add, hown]
  · exact hsame.right.trans hsame'.tail.right
  · intro j hj
    rw [hrow, Function.update_of_ne hj]

section Ends
variable {G : Label → Ram → Prop} {ok : Use → Prop} {E : Stop → Prop} {α : Type} {Q : α → Ram → Prop}
  (hm : Stocked board m₀) (hG : Allows board m₀ G ok)
include hG

theorem ends_loadPte {k : Nat → Vm α} (slot : Slot) (h : (k (m.pte slot.1 slot.2)).Ends G E m Q) :
    (loadPte slot >>= k).Ends G E m Q := ⟨hG.plain m, m, rfl, h⟩

theorem ends_storePte {k : Unit → Vm α} (slot : Slot) (w : Nat) (h : (k ()).Ends G E (m.setPte slot.1 slot.2 w) Q) :
    (storePte slot w >>= k).Ends G E m Q := Prog.Ends.change (hG.plain m) h

/-- A walk that may not allocate. -/
theorem ends_walkFrom (va : Nat) (ha : Path S (px va)) (hs : Shape S m.heap l p) :
    (walkFrom va false l p).Ends G E m fun r m' =>
      m' = m ∧ r = (node? m.heap l p (px va)).map fun q => (q, px va 0) := by
  induction l generalizing p with
  | zero => exact ⟨rfl, rfl⟩
  | succ l ih =>
    unfold walkFrom
    apply ends_loadPte hG
    rcases pte_of_shape hs (ha (l + 1)) with ⟨hv, he⟩ | ⟨hv, -, he⟩
    · simp only [hv, Bool.false_eq_true, if_false, node?, he]
      exact ⟨rfl, rfl⟩
    · simp only [hv, if_true, node?_table he]
      have hfit := (shape_succ l p).mp hs _ (ha (l + 1))
      rw [he] at hfit
      exact ih hfit

include hm

/-- A walk that may allocate. -/
theorem ends_walkFrom_alloc (va : Nat) (ha : Path S (px va)) (hs : Shape S m.heap l p)
    (hb : Books board m₀ (tabs (nodes S m.heap l p) + R) m) :
    (walkFrom va true l p).Ends G E m fun r m' => Grown board m₀ S l p (px va l) R m m' ∧
      ((r = none ∧ node? m'.heap l p (px va) = none ∧ m.free.length < missing m.heap l p (px va)) ∨
        ∃ q, r = some (q, px va 0) ∧ node? m'.heap l p (px va) = some q ∧
          m'.free.length + missing m.heap l p (px va) = m.free.length) := by
  induction l generalizing p m R with
  | zero => exact ⟨Grown.refl hs hb, .inr ⟨p, rfl, rfl, rfl⟩⟩
  | succ l ih =>
    have hi := ha (l + 1)
    -- the walk goes on in the page table `q` that the entry names
    have hdown : ∀ {q : Page} {m : Ram}, m.heap p (px va (l + 1)) = .table q → Shape S m.heap (l + 1) p →
        Books board m₀ (tabs (nodes S m.heap (l + 1) p) + R) m →
        (walkFrom va true l q).Ends G E m fun r m' => Grown board m₀ S (l + 1) p (px va (l + 1)) R m m' ∧
          ((r = none ∧ node? m'.heap (l + 1) p (px va) = none ∧ m.free.length < missing m.heap l q (px va)) ∨
            ∃ q', r = some (q', px va 0) ∧ node? m'.heap (l + 1) p (px va) = some q' ∧
              m'.free.length + missing m.heap l q (px va) = m.free.length) := by
      intro q m he hs hb
      have hfit := (shape_succ l p).mp hs _ hi
      rw [he] at hfit
      refine (ih hfit (hb.congr (Books.split hi he))).imp fun r m' h => ?_
      obtain ⟨hg, hr⟩ := h
      have he' : m'.heap p (px va (l + 1)) = .table q := by
        rw [hg.same.heap (Multiset.mem_cons_self _ _)]
        exact he
      rw [node?_table he']
      exact ⟨Grown.up hi he hs hg, hr⟩
    unfold walkFrom
    apply ends_loadPte hG
    rcases pte_of_shape hs hi with ⟨hv, he⟩ | ⟨hv, -, he⟩
    · simp only [hv, Bool.false_eq_true, if_false, if_true]
      rw [missing_empty he]
      apply ends_kalloc hm hG hb
      · intro hf
        refine ⟨Grown.refl hs hb, .inl ⟨rfl, ?_, ?_⟩⟩
        · simp only [node?, he]
        · rw [hf]
          exact Nat.succ_pos l
      · intro q m₁ hf hb₁ hs₁
        obtain ⟨hb₂, hs₂⟩ := hb₁.write hm fun _ => 0
        obtain ⟨hg, he', hblank⟩ := Grown.link hm hi he hs (hs₁.trans hs₂) hb₂ (m₁.write_byte q _)
        apply Prog.Ends.change (hG.plain _)
        apply ends_storePte hG
        have hfree : m.free.length = m₁.free.length + 1 := by
          rw [hf]
          rfl
        refine (hdown he' hg.shape hg.books).imp fun r m' h => ?_
        rw [missing_blank hblank] at h
        obtain ⟨hg', hr⟩ := h
        refine ⟨hg.trans hg', ?_⟩
        rw [hfree]
        rcases hr with ⟨hr, hnode, hlt⟩ | ⟨q', hr, hq', hlen⟩
        · exact .inl ⟨hr, hnode, Nat.succ_lt_succ hlt⟩
        · exact .inr ⟨q', hr, hq', by rw [← Nat.add_assoc, hlen]; rfl⟩
    · simp only [hv, if_true]
      rw [missing_table he]
      exact hdown he hs hb

end Ends
end Farron.Memory
