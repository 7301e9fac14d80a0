import Farron.Memory.Walks
import Mathlib.Data.Multiset.Filter
import Mathlib.Tactic.NormNum

/-! Page tables as finite maps from page numbers to leaves.

`Table` is what a page table, seen through the indices `S` of its root, maps; `Holds` adds
that its pages are owned, next to the rest `R`. For each function that works on one page
table there is one result: how it changes the map, and that it changes nothing else
(`Edit`). -/
namespace Farron.Memory
open Resumption Radix

/-! ### Indices -/

theorem px_val (v k : Nat) (hk : k ≤ 2) : (px (v * pgsize) k : Nat) = v / 512 ^ k % 512 := by
  have h : k = 0 ∨ k = 1 ∨ k = 2 := by omega
  simp only [px, pgsize_eq]
  rcases h with rfl | rfl | rfl <;> norm_num <;> omega

theorem px_inj {v w : Nat} (hv : v < 2 ^ 27) (hw : w < 2 ^ 27) :
    (∀ k, k ≤ 2 → px (w * pgsize) k = px (v * pgsize) k) ↔ w = v := by
  constructor
  · intro h
    have hk : ∀ k, k ≤ 2 → w / 512 ^ k % 512 = v / 512 ^ k % 512 := by
      intro k hk
      rw [← px_val w k hk, ← px_val v k hk, h k hk]
    have h0 := hk 0 (by omega)
    have h1 := hk 1 (by omega)
    have h2 := hk 2 (by omega)
    norm_num at h0 h1 h2
    omega
  · intro h k _
    rw [h]

/-- Every path is that of a page number. -/
theorem exists_px (b : Nat → Fin 512) : ∃ v, v < 2 ^ 27 ∧ ∀ k, k ≤ 2 → px (v * pgsize) k = b k := by
  have h0 := (b 0).isLt
  have h1 := (b 1).isLt
  have h2 := (b 2).isLt
  refine ⟨(b 2 * 512 + b 1) * 512 + b 0, by omega, fun k hk => Fin.ext ?_⟩
  rw [px_val _ k hk]
  have h : k = 0 ∨ k = 1 ∨ k = 2 := by omega
  rcases h with rfl | rfl | rfl <;> norm_num <;> omega

variable {board : Board} {m₀ m m' m'' : Ram} {R : Multiset (Page × Use)} {S : Finset (Fin 512)}
  {f : Nat → Option Pte} {root q : Page} {v w va : Nat} {e : Pte}

theorem path_px (h : px va 2 ∈ S) : Path (within S) (px va) := by
  intro k
  unfold within
  split
  next hk =>
    rw [hk]
    exact h
  next => exact Finset.mem_univ _

/-! ### Page tables -/

/-- Seen through the indices `S`, the page table at `root` maps page numbers as `f` does. -/
structure Table (S : Finset (Fin 512)) (f : Nat → Option Pte) (m : Ram) (root : Page) : Prop where
  shape : Shape (within S) m.heap 2 root
  maps : ∀ v, v < 2 ^ 27 → px (v * pgsize) 2 ∈ S → find m.heap 2 root (px (v * pgsize)) = f v

/-- A page table whose pages are owned, next to the rest. -/
structure Holds (board : Board) (m₀ : Ram) (S : Finset (Fin 512)) (f : Nat → Option Pte) (root : Page)
    (R : Multiset (Page × Use)) (m : Ram) : Prop where
  table : Table S f m root
  books : Books board m₀ (tabs (pagesOf m S root) + R) m

/-- What a function may do that works on the page table at `root`: the rest keeps its
contents, and so do the entries of the root that are not looked at. -/
structure Edit (S : Finset (Fin 512)) (root : Page) (R : Multiset (Page × Use)) (m m' : Ram) : Prop where
  same : Same R m m'
  row : ∀ j, j ∉ S → m'.heap root j = m.heap root j

theorem Edit.refl (S : Finset (Fin 512)) (root : Page) (R : Multiset (Page × Use)) (m : Ram) : Edit S root R m m :=
  ⟨Same.refl R m, fun _ _ => rfl⟩

theorem Edit.trans (h : Edit S root R m m') (h' : Edit S root R m' m'') : Edit S root R m m'' :=
  ⟨h.same.trans h'.same, fun j hj => (h'.row j hj).trans (h.row j hj)⟩

theorem Edit.mono {R' : Multiset (Page × Use)} (h : Edit S root R m m') (hR : R' ≤ R) : Edit S root R' m m' :=
  ⟨h.same.mono hR, h.row⟩

/-- The root is as before. -/
theorem Edit.of_root (hs : Same R m m') (h : m'.heap root = m.heap root) : Edit S root R m m' :=
  ⟨hs, fun j _ => by rw [h]⟩

/-- A page table none of whose pages has changed. -/
theorem Table.same (h : Table S f m root) (hs : Same (tabs (pagesOf m S root)) m m') : Table S f m' root := by
  have hh : ∀ p ∈ nodes (within S) m.heap 2 root, m'.heap p = m.heap p := by
    intro p hp
    rw [← pagesOf_eq] at hp
    exact hs.tabs_heap hp
  refine ⟨h.shape.congr hh, fun v hv hS => ?_⟩
  rw [find_congr (fun k _ => path_px hS k) hh, h.maps v hv hS]

theorem Table.congr {g : Nat → Option Pte} (h : Table S f m root)
    (hfg : ∀ v, v < 2 ^ 27 → px (v * pgsize) 2 ∈ S → f v = g v) : Table S g m root :=
  ⟨h.shape, fun v hv hS => (h.maps v hv hS).trans (hfg v hv hS)⟩

theorem Holds.congr {R' : Multiset (Page × Use)} {g : Nat → Option Pte} (h : Holds board m₀ S f root R m)
    (hfg : ∀ v, v < 2 ^ 27 → px (v * pgsize) 2 ∈ S → f v = g v) (hR : R = R') : Holds board m₀ S g root R' m :=
  ⟨h.table.congr hfg, hR ▸ h.books⟩

theorem Holds.rest {R' : Multiset (Page × Use)} (h : Holds board m₀ S f root R m) (hR : R = R') :
    Holds board m₀ S f root R' m := hR ▸ h

theorem Holds.nodup (h : Holds board m₀ S f root R m) (hm : Stocked board m₀) :
    (nodes (within S) m.heap 2 root).Nodup := by
  rw [← pagesOf_eq]
  exact h.books.nodup_tabs hm

/-- Pages hung into a page table do not change its map. -/
theorem Holds.grown {i : Fin 512} (h : Holds board m₀ S f root R m) (hi : i ∈ S)
    (hg : Grown board m₀ (within S) 2 root i R m m') : Holds board m₀ S f root R m' ∧ Edit S root R m m' := by
  refine ⟨⟨⟨hg.shape, fun v hv hS => ?_⟩, ?_⟩, hg.same, fun j hj => hg.row j fun hji => hj (hji ▸ hi)⟩
  · rw [hg.find _ (path_px hS), h.table.maps v hv hS]
  · rw [pagesOf_eq]
    exact hg.books

theorem Table.node?_of_some (h : Table S f m root) (hv : v < 2 ^ 27) (hS : px (v * pgsize) 2 ∈ S) (he : f v = some e) :
    ∃ q, node? m.heap 2 root (px (v * pgsize)) = some q := by
  cases hq : node? m.heap 2 root (px (v * pgsize)) with
  | none =>
    have hmap := h.maps v hv hS
    rw [find_of_not_node? hq, he] at hmap
    cases hmap
  | some q => exact ⟨q, rfl⟩

/-- The word in the slot of a page number. -/
theorem Table.entry (h : Table S f m root) (hv : v < 2 ^ 27) (hS : px (v * pgsize) 2 ∈ S)
    (hq : node? m.heap 2 root (px (v * pgsize)) = some q) :
    Memory.entry (m.pte q (px (v * pgsize) 0)) = (f v).elim .empty .leaf := by
  have hmap := h.maps v hv hS
  rw [find_of_node? hq] at hmap
  have hnt := h.shape.node (path_px hS) hq (px (v * pgsize) 0)
  show m.heap q (px (v * pgsize) 0) = _
  cases he : m.heap q (px (v * pgsize) 0) with
  | empty =>
    rw [he] at hmap
    rw [← hmap]
    rfl
  | table r => exact absurd he (hnt r)
  | leaf e =>
    rw [he] at hmap
    rw [← hmap]
    rfl

theorem Table.isValid (h : Table S f m root) (hv : v < 2 ^ 27) (hS : px (v * pgsize) 2 ∈ S)
    (hq : node? m.heap 2 root (px (v * pgsize)) = some q) :
    Memory.isValid (m.pte q (px (v * pgsize) 0)) = (f v).isSome := by
  have he := h.entry hv hS hq
  cases hf : f v with
  | none =>
    rw [hf] at he
    exact entry_empty.mp he
  | some e =>
    rw [hf] at he
    exact (entry_leaf he).1

/-- A word is stored in the slot of a page number. -/
theorem Holds.setPte (h : Holds board m₀ S f root R m) (hm : Stocked board m₀) (hv : v < 2 ^ 27)
    (hS : px (v * pgsize) 2 ∈ S) (hq : node? m.heap 2 root (px (v * pgsize)) = some q) (hw : w < 2 ^ 64)
    (he : ∀ r, Memory.entry w ≠ .table r) :
    Holds board m₀ S (Function.update f v (Memory.entry w).leaf?) root R (m.setPte q (px (v * pgsize) 0) w) ∧
      Same R m (m.setPte q (px (v * pgsize) 0) w) ∧ (m.setPte q (px (v * pgsize) 0) w).heap root = m.heap root ∧
      (node? (m.setPte q (px (v * pgsize) 0) w).heap 2 root (px (v * pgsize))).isSome := by
  have hpath : Path (within S) (px (v * pgsize)) := path_px hS
  have hqn : q ∈ nodes (within S) m.heap 2 root := node?_mem hpath hq
  have hput : Put (within S) m.heap (m.setPte q (px (v * pgsize) 0) w).heap 2 root q (px (v * pgsize)) (Memory.entry w) :=
    ⟨hpath, hq, h.nodup hm, m.heap_setPte q _ hw, fun x _ hx => m.heap_setPte_ne _ _ hx⟩
  obtain ⟨N, hN⟩ := Multiset.exists_cons_of_mem hqn
  have hbooks : Books board m₀ ((q, .table) ::ₘ (tabs N + R)) m := by
    refine h.books.congr ?_
    rw [pagesOf_eq, hN, tabs_cons, Multiset.cons_add]
  obtain ⟨hb, hs⟩ := hbooks.write hm (putWord64 (8 * (px (v * pgsize) 0)) w (m.byte q))
  obtain ⟨r, hr⟩ := hput.table
  refine ⟨⟨⟨hput.shape h.table.shape he, fun x hx hxS => ?_⟩, ?_⟩, hs.right, (hput.down hr).2.1, ?_⟩
  · rw [hput.find (path_px hxS), Function.update_apply]
    simp only [px_inj hv hx]
    rw [h.table.maps x hx hxS]
  · refine hb.congr ?_
    rw [pagesOf_eq, hput.nodes, hN, tabs_cons, Multiset.cons_add]
  · rw [hput.node']
    rfl

/-! ### One page table -/

theorem isLeaf_flags (pte : Nat) : isLeaf pte = isLeaf (pteFlags pte) := by
  simp only [isLeaf, pteFlags, ← testBit_flags (by omega : 1 < 10), ← testBit_flags (by omega : 2 < 10),
    ← testBit_flags (by omega : 3 < 10)]

theorem isUser_flags (pte : Nat) : isUser pte = isUser (pteFlags pte) := testBit_flags (by omega)

theorem pteFlags_ne_of_isLeaf {pte : Nat} (h : isLeaf pte = true) : pteFlags pte ≠ pteV := by
  intro he
  rw [isLeaf_flags, he] at h
  exact absurd h (by decide)

theorem lt_maxva {v : Nat} (h : v < 2 ^ 26) : v * pgsize < maxva := by
  simp only [pgsize_eq, maxva]
  omega

/-- The leaves of `n` pages from `v` on are gone. -/
def erase (f : Nat → Option Pte) (v n : Nat) (x : Nat) : Option Pte := if v ≤ x ∧ x < v + n then none else f x

/-- The pages that `n` pages from `v` on are mapped to, with their use. -/
def mapped (f : Nat → Option Pte) (u : Use) (v n : Nat) : Multiset (Page × Use) :=
  ((List.range' v n).filterMap fun x => (f x).map fun e => (e.page, u) : List (Page × Use))

theorem mapped_zero (f : Nat → Option Pte) (u : Use) (v : Nat) : mapped f u v 0 = 0 := rfl

theorem mapped_succ {u : Use} {n : Nat} (he : f v = some e) :
    mapped f u v (n + 1) = (e.page, u) ::ₘ mapped f u (v + 1) n := by
  unfold mapped
  rw [List.range'_succ, List.filterMap_cons, he]
  rfl

theorem mapped_update {u : Use} {n : Nat} (o : Option Pte) :
    mapped (Function.update f v o) u (v + 1) n = mapped f u (v + 1) n := by
  unfold mapped
  congr 1
  apply List.filterMap_congr
  intro x hx
  rw [List.mem_range'_1] at hx
  rw [Function.update_of_ne (by omega)]

theorem erase_update {n : Nat} : erase (Function.update f v none) (v + 1) n = erase f v (n + 1) := by
  funext x
  unfold erase
  by_cases hx : x = v
  · rw [hx, Function.update_self, ite_self, if_pos ⟨Nat.le_refl v, by omega⟩]
  · rw [Function.update_of_ne hx]
    congr 1
    exact propext (by omega)

section Ends
variable {G : Label → Ram → Prop} {ok : Use → Prop} {E : Stop → Prop} {α : Type} {Q : α → Ram → Prop}
  (hm : Stocked board m₀) (hG : Allows board m₀ G ok)
include hG

theorem ends_walk (h : Table S f m root) (hva : va < maxva) (hS : px va 2 ∈ S) :
    (walk root va false).Ends G E m fun r m' =>
      m' = m ∧ r = (node? m.heap 2 root (px va)).map fun q => (q, px va 0) := by
  unfold walk
  rw [if_neg (Nat.not_le.mpr hva)]
  exact ends_walkFrom hG va (path_px hS) h.shape

/-- `walk` at a mapped page number, and what follows it. -/
theorem ends_walk_some {k : Option Slot → Vm α} (h : Table S f m root) (hv : v < 2 ^ 26) (hS : px (v * pgsize) 2 ∈ S)
    (he : f v = some e)
    (hk : ∀ q, node? m.heap 2 root (px (v * pgsize)) = some q →
      entry (m.pte q (px (v * pgsize) 0)) = .leaf e → (k (some (q, px (v * pgsize) 0))).Ends G E m Q) :
    (walk root (v * pgsize) false >>= k).Ends G E m Q := by
  have hv' : v < 2 ^ 27 := by omega
  obtain ⟨q, hq⟩ := h.node?_of_some hv' hS he
  have hent := h.entry hv' hS hq
  rw [he] at hent
  apply (ends_walk hG h (lt_maxva hv) hS).bind
  intro r m' hr
  obtain ⟨rfl, rfl⟩ := hr
  rw [hq]
  exact hk q hq hent

theorem ends_walkaddr (h : Table S f m root) (hv : v < 2 ^ 26) (hS : px (v * pgsize) 2 ∈ S) :
    (walkaddr root (v * pgsize)).Ends G E m fun r m' =>
      m' = m ∧ r = (f v).bind fun e => if isUser e.flags then some e.page else none := by
  have hv' : v < 2 ^ 27 := by omega
  unfold walkaddr
  rw [if_neg (Nat.not_le.mpr (lt_maxva hv))]
  apply (ends_walk hG h (lt_maxva hv) hS).bind
  intro r m' hr
  obtain ⟨rfl, rfl⟩ := hr
  cases hq : node? m'.heap 2 root (px (v * pgsize)) with
  | none =>
    have hmap := h.maps v hv' hS
    rw [find_of_not_node? hq] at hmap
    rw [← hmap]
    exact ⟨rfl, rfl⟩
  | some q =>
    have hent := h.entry hv' hS hq
    apply ends_loadPte hG
    cases he : f v with
    | none =>
      rw [he] at hent
      simp only [entry_empty.mp hent, Bool.not_false, if_true]
      exact ⟨rfl, rfl⟩
    | some e =>
      rw [he] at hent
      obtain ⟨hval, -, hpa, hfl⟩ := entry_leaf hent
      have huser : isUser (m'.pte q (px (v * pgsize) 0)) = isUser e.flags := by rw [isUser_flags, hfl]
      simp only [hval, Bool.not_true, Bool.false_eq_true, if_false, huser, hpa, Option.bind_some]
      cases isUser e.flags with
      | false => exact ⟨rfl, rfl⟩
      | true => exact ⟨rfl, rfl⟩

/-- Nothing is unmapped where no page of page-table entries is. -/
theorem ends_vmunmap_none {d : Bool} (h : Table S f m root) (hv : v < 2 ^ 26) (hS : px (v * pgsize) 2 ∈ S)
    (hnode : node? m.heap 2 root (px (v * pgsize)) = none) (hE : E (.panic "vmunmap: walk")) :
    (vmunmap board root (v * pgsize) 1 d).Ends G E m fun _ _ => False := by
  have halign : v * pgsize % pgsize = 0 := Nat.mul_mod_left _ _
  have hrounds : (u64 (v * pgsize + 1 * pgsize) - v * pgsize + pgsize - 1) / pgsize = 1 := by
    simp only [u64, pgsize_eq]
    omega
  unfold vmunmap
  rw [if_neg (by rw [halign]; exact fun h => h rfl), hrounds]
  unfold unmapLoop
  apply (ends_walk hG h (lt_maxva hv) hS).bind
  intro r m' hr
  obtain ⟨-, rfl⟩ := hr
  rw [hnode]
  exact hE

include hm

/-- One page is mapped. -/
theorem ends_mappages {pa : Page} {perm : Nat} (h : Holds board m₀ S f root R m) (hv : v < 2 ^ 26)
    (hS : px (v * pgsize) 2 ∈ S) (hf : f v = none) (hpa : pa < 2 ^ 52) (hperm : perm < 1024) (hleaf : isLeaf perm = true) :
    (mappages root (v * pgsize) pgsize pa perm).Ends G E m fun r m' => Edit S root R m m' ∧
      ((r = -1 ∧ Holds board m₀ S f root R m' ∧ node? m'.heap 2 root (px (v * pgsize)) = none ∧
          m.free.length < missing m.heap 2 root (px (v * pgsize))) ∨
        (r = 0 ∧ Holds board m₀ S (Function.update f v (some ⟨pa, perm ||| pteV⟩)) root R m' ∧
          missing m'.heap 2 root (px (v * pgsize)) = 0 ∧ (∀ j, j ≠ px (v * pgsize) 2 → m'.heap root j = m.heap root j) ∧
          m'.free.length + missing m.heap 2 root (px (v * pgsize)) = m.free.length)) := by
  have hv' : v < 2 ^ 27 := by omega
  have hfirst : pgrounddown (v * pgsize) = v * pgsize := by
    simp only [pgrounddown, pgsize_eq]
    omega
  have hlast : pgrounddown (u64 (v * pgsize + pgsize + 2 ^ 64 - 1)) = v * pgsize := by
    simp only [pgrounddown, u64, pgsize_eq]
    omega
  unfold mappages
  rw [hfirst, hlast]
  unfold mapLoop walk
  rw [if_neg (Nat.not_le.mpr (lt_maxva hv))]
  have hbooks := h.books
  rw [pagesOf_eq] at hbooks
  apply (ends_walkFrom_alloc hm hG (v * pgsize) (path_px hS) h.table.shape hbooks).bind
  intro r m₁ hr
  obtain ⟨hg, hr⟩ := hr
  obtain ⟨h₁, hedit⟩ := h.grown hS hg
  rcases hr with ⟨rfl, hnode, hlen⟩ | ⟨q, rfl, hq, hlen⟩
  · exact ⟨hedit, .inl ⟨rfl, h₁, hnode, hlen⟩⟩
  · apply ends_loadPte hG
    have hinvalid := h₁.table.isValid hv' hS hq
    rw [hf] at hinvalid
    have hperm' : perm ||| pteV < 1024 := @Nat.or_lt_two_pow perm pteV 10 hperm (by decide)
    have hflags : isValid (perm ||| pteV) = true ∧ isLeaf (perm ||| pteV) = true := by
      unfold isLeaf at hleaf
      constructor
      · simp [isValid, pteV]
      · simp only [isLeaf, Nat.testBit_or, Bool.or_eq_true] at hleaf ⊢
        rcases hleaf with (h1 | h1) | h1 <;> simp [h1]
    have hentry := entry_word_leaf hpa hperm' hflags.1 hflags.2
    obtain ⟨h₂, hs₂, hroot, hnode⟩ := h₁.setPte hm hv' hS hq (pte_word hpa hperm').2.2 (by rw [hentry]; exact fun _ h => by cases h)
    simp only [hinvalid, Option.isSome_none, Bool.false_eq_true, if_false, if_true]
    apply ends_storePte hG
    rw [hentry] at h₂
    refine ⟨hedit.trans (.of_root hs₂ hroot), .inr ⟨rfl, h₂, (node?_isSome_iff _ _ _ _).mp hnode, fun j hj => ?_, hlen⟩⟩
    exact (congrFun hroot j).trans (hg.row j hj)

/-- `n` mapped pages are unmapped; if they are freed, they were owned. -/
theorem ends_unmapLoop {u : Use} {d : Bool} (n : Nat) (hv : v + n ≤ 2 ^ 26)
    (hS : ∀ x, v ≤ x → x < v + n → px (x * pgsize) 2 ∈ S) (hf : ∀ x, v ≤ x → x < v + n → (f x).isSome)
    (hok : d = true → ok u)
    (h : Holds board m₀ S f root ((if d then mapped f u v n else 0) + R) m) :
    (unmapLoop board root d n (v * pgsize)).Ends G E m fun _ m' =>
      Holds board m₀ S (erase f v n) root R m' ∧ Edit S root R m m' := by
  induction n generalizing v f m with
  | zero =>
    refine ⟨h.congr (fun x _ _ => ?_) ?_, Edit.refl S root R m⟩
    · unfold erase
      rw [if_neg (by omega)]
    · rw [mapped_zero, ite_self, zero_add]
  | succ n ih =>
    obtain ⟨e, he⟩ := Option.isSome_iff_exists.mp (hf v (Nat.le_refl v) (by omega))
    have hSv := hS v (Nat.le_refl v) (by omega)
    unfold unmapLoop
    apply ends_walk_some hG h.table (by omega) hSv he
    intro q hq hent
    apply ends_loadPte hG
    obtain ⟨hval, hleaf, hpa, -⟩ := entry_leaf hent
    simp only [hval, Bool.not_true, Bool.false_eq_true, if_false, pteFlags_ne_of_isLeaf hleaf, hpa]
    have hnext : u64 (v * pgsize + pgsize) = (v + 1) * pgsize := by
      simp only [u64, pgsize_eq]
      omega
    -- the page is freed, if it is to be
    have hfree : (if d then kfree board e.page else pure ()).Ends G E m fun _ m' =>
        Holds board m₀ S f root ((if d then mapped f u (v + 1) n else 0) + R) m' ∧
          Edit S root ((if d then mapped f u (v + 1) n else 0) + R) m m' ∧
          node? m'.heap 2 root (px (v * pgsize)) = some q := by
      cases d with
      | false => exact ⟨h, Edit.refl S root _ m, hq⟩
      | true =>
        simp only [if_true] at h ⊢
        have hbooks : Books board m₀ ((e.page, u) ::ₘ (tabs (pagesOf m S root) + (mapped f u (v + 1) n + R))) m := by
          refine h.books.congr ?_
          rw [mapped_succ he, Multiset.cons_add, Multiset.add_cons]
        refine (ends_kfree hm hG hbooks (hok rfl)).imp fun _ m' hm' => ?_
        obtain ⟨hb', hs', -⟩ := hm'
        have hheap : ∀ p ∈ nodes (within S) m.heap 2 root, m'.heap p = m.heap p := by
          intro p hp
          rw [← pagesOf_eq] at hp
          exact hs'.left.tabs_heap hp
        refine ⟨⟨h.table.same hs'.left, ?_⟩, ⟨hs'.right, fun j _ => ?_⟩, ?_⟩
        · rw [hs'.left.pagesOf]
          exact hb'
        · rw [hheap root (mem_nodes_self _ _)]
        · rw [node?_congr (path_px hSv) hheap]
          exact hq
    apply hfree.bind
    intro _ m₁ h₁
    obtain ⟨h₁, hedit₁, hq₁⟩ := h₁
    obtain ⟨h₂, hs₂, hroot, -⟩ := h₁.setPte hm (w := 0) (by omega) hSv hq₁ (by decide)
      (by rw [entry_zero]; exact fun _ => nofun)
    apply ends_storePte hG
    rw [hnext]
    rw [entry_zero, Entry.leaf?_empty] at h₂
    have hrest : ∀ x, v + 1 ≤ x → x < v + 1 + n → Function.update f v none x = f x :=
      fun x hx _ => Function.update_of_ne (by omega) _ _
    refine (ih (f := Function.update f v none) (by omega) (fun x hx hx' => hS x (by omega) (by omega)) ?_ ?_).imp
      fun _ m' hm' => ?_
    · intro x hx hx'
      rw [hrest x hx hx']
      exact hf x (by omega) (by omega)
    · rw [mapped_update]
      exact h₂
    · obtain ⟨h₃, hedit₃⟩ := hm'
      rw [erase_update] at h₃
      refine ⟨h₃, ((hedit₁.trans (.of_root hs₂ hroot)).mono ?_).trans hedit₃⟩
      exact Multiset.le_add_left _ _

theorem ends_vmunmap {u : Use} {d : Bool} (n : Nat) (hv : v + n ≤ 2 ^ 26)
    (hS : ∀ x, v ≤ x → x < v + n → px (x * pgsize) 2 ∈ S) (hf : ∀ x, v ≤ x → x < v + n → (f x).isSome)
    (hok : d = true → ok u)
    (h : Holds board m₀ S f root ((if d then mapped f u v n else 0) + R) m) :
    (vmunmap board root (v * pgsize) n d).Ends G E m fun _ m' =>
      Holds board m₀ S (erase f v n) root R m' ∧ Edit S root R m m' := by
  have halign : v * pgsize % pgsize = 0 := Nat.mul_mod_left _ _
  have hrounds : (u64 (v * pgsize + n * pgsize) - v * pgsize + pgsize - 1) / pgsize = n := by
    simp only [u64, pgsize_eq]
    omega
  unfold vmunmap
  rw [if_neg (by rw [halign]; exact fun h => h rfl), hrounds]
  exact ends_unmapLoop hm hG n hv hS hf hok h

/-- A leaf loses `PTE_U`. -/
theorem ends_uvmclear (h : Holds board m₀ S f root R m) (hv : v < 2 ^ 26) (hS : px (v * pgsize) 2 ∈ S) (he : f v = some e) :
    (uvmclear root (v * pgsize)).Ends G E m fun _ m' =>
      Holds board m₀ S (Function.update f v (some ⟨e.page, noU e.flags⟩)) root R m' ∧ Edit S root R m m' := by
  unfold uvmclear
  apply ends_walk_some hG h.table hv hS he
  intro q hq hent
  apply ends_loadPte hG
  have hlt : m.pte q (px (v * pgsize) 0) < 2 ^ 64 := word64_lt _ _
  have hclear := entry_clearU hlt hent
  obtain ⟨h₁, hs, hroot, -⟩ := h.setPte hm (by omega) hS hq (clearU_lt hlt) (by rw [hclear]; exact fun _ => nofun)
  rw [hclear] at h₁
  exact ⟨hG.plain m, _, rfl, h₁, .of_root hs hroot⟩

end Ends
end Farron.Memory
