import Mathlib.Algebra.BigOperators.Group.Finset.Basic
import Mathlib.Algebra.Order.Group.Multiset

/-! Radix trees in a heap.

Pages hold one entry for each index; an entry is empty, names a page one level further
down, or is a leaf. A tree of height `l` is known by its root page and the heap. It is
looked at through a set of indices for each level (`S`), so the part of a root's entries
that the tree shares with another one can be left out.

`nodes` are the pages of a tree, each as often as it is reached, and `find` is the finite
map the tree stands for. Both depend on the pages of the tree only (`nodes_congr`,
`find_congr`). A step of a program changes the entries of one page; `Turn` says that only
what is under one index of the root differs, and the results on `put` (a leaf is written)
and `link` (an empty page is hung in) follow by going down along one path. -/
namespace Radix

inductive Entry (P E : Type)
  | empty
  | table (page : P)
  | leaf (value : E)
  deriving DecidableEq

namespace Entry
variable {P E : Type}

def leaf? : Entry P E → Option E
  | .leaf e => some e
  | _ => none

@[simp] theorem leaf?_empty : (empty : Entry P E).leaf? = none := rfl
@[simp] theorem leaf?_table (p : P) : (table p : Entry P E).leaf? = none := rfl
@[simp] theorem leaf?_leaf (e : E) : (leaf e : Entry P E).leaf? = some e := rfl

end Entry

abbrev Heap (P I E : Type) := P → I → Entry P E

variable {P I E : Type}

section Defs
variable (S : Nat → Finset I) (h : Heap P I E)

/-- The pages of the tree of height `l` at `p`. -/
def nodes : Nat → P → Multiset P
  | 0, p => {p}
  | l + 1, p => p ::ₘ ∑ i ∈ S (l + 1), match h p i with
    | .table q => nodes l q
    | _ => 0

/-- The pages of the tree under an entry. -/
def below (l : Nat) : Entry P E → Multiset P
  | .table q => nodes S h l q
  | _ => 0

/-- The leaf at the end of a path; `a k` is the index taken in a page of height `k`. -/
def find : Nat → P → (Nat → I) → Option E
  | 0, p, a => (h p (a 0)).leaf?
  | l + 1, p, a => match h p (a (l + 1)) with
    | .table q => find l q a
    | _ => none

/-- The page of height 0 on a path. -/
def node? : Nat → P → (Nat → I) → Option P
  | 0, p, _ => some p
  | l + 1, p, a => match h p (a (l + 1)) with
    | .table q => node? l q a
    | _ => none

/-- How many pages a path still needs. -/
def missing : Nat → P → (Nat → I) → Nat
  | 0, _, _ => 0
  | l + 1, p, a => match h p (a (l + 1)) with
    | .table q => missing l q a
    | _ => l + 1

/-- Leaves are in pages of height 0 only, and name no page. -/
def Shape : Nat → P → Prop
  | 0, p => ∀ i q, h p i ≠ .table q
  | l + 1, p => ∀ i ∈ S (l + 1), match h p i with
    | .empty => True
    | .table q => Shape l q
    | .leaf _ => False

/-- An entry of a page of height `l + 1` that `Shape` allows. -/
def Fits (l : Nat) : Entry P E → Prop
  | .empty => True
  | .table q => Shape S h l q
  | .leaf _ => False

/-- The pages under the other entries of a page. -/
def siblings [DecidableEq I] (l : Nat) (p : P) (i : I) : Multiset P :=
  ∑ j ∈ (S (l + 1)).erase i, below S h l (h p j)

end Defs

/-- A path that stays among the indices looked at. -/
def Path (S : Nat → Finset I) (a : Nat → I) : Prop := ∀ k, a k ∈ S k

variable {S : Nat → Finset I} {h h' : Heap P I E} {l : Nat} {p q : P} {a b : Nat → I}

@[simp] theorem nodes_zero (p : P) : nodes S h 0 p = {p} := rfl

theorem nodes_succ (l : Nat) (p : P) :
    nodes S h (l + 1) p = p ::ₘ ∑ i ∈ S (l + 1), below S h l (h p i) := by
  simp only [nodes]
  rfl

@[simp] theorem below_empty : below S h l .empty = 0 := rfl
@[simp] theorem below_table (q : P) : below S h l (.table q) = nodes S h l q := rfl
@[simp] theorem below_leaf (e : E) : below S h l (.leaf e) = 0 := rfl

@[simp] theorem find_zero (p : P) (a : Nat → I) : find h 0 p a = (h p (a 0)).leaf? := rfl
theorem find_table (hq : h p (a (l + 1)) = .table q) : find h (l + 1) p a = find h l q a := by
  simp only [find, hq]
theorem find_empty (hq : h p (a (l + 1)) = .empty) : find h (l + 1) p a = none := by
  simp only [find, hq]

theorem node?_table (hq : h p (a (l + 1)) = .table q) : node? h (l + 1) p a = node? h l q a := by
  simp only [node?, hq]

theorem missing_table (hq : h p (a (l + 1)) = .table q) : missing h (l + 1) p a = missing h l q a := by
  simp only [missing, hq]
theorem missing_empty (hq : h p (a (l + 1)) = .empty) : missing h (l + 1) p a = l + 1 := by
  simp only [missing, hq]

@[simp] theorem fits_empty : Fits S h l .empty ↔ True := Iff.rfl
@[simp] theorem fits_table (q : P) : Fits S h l (.table q) ↔ Shape S h l q := Iff.rfl

theorem shape_succ (l : Nat) (p : P) : Shape S h (l + 1) p ↔ ∀ i ∈ S (l + 1), Fits S h l (h p i) := by
  simp only [Shape]
  rfl

theorem mem_nodes_self (l : Nat) (p : P) : p ∈ nodes S h l p := by
  cases l with
  | zero => exact Multiset.mem_singleton_self p
  | succ l =>
    rw [nodes_succ]
    exact Multiset.mem_cons_self p _

theorem mem_nodes_below {i : I} (hi : i ∈ S (l + 1)) (hq : q ∈ below S h l (h p i)) :
    q ∈ nodes S h (l + 1) p := by
  rw [nodes_succ]
  exact Multiset.mem_cons_of_mem (Multiset.mem_sum.mpr ⟨i, hi, hq⟩)

/-! ### Only the pages of a tree matter -/

theorem below_congr (l : Nat) (ih : ∀ q, (∀ x ∈ nodes S h l q, h' x = h x) → nodes S h' l q = nodes S h l q)
    {e : Entry P E} (hh : ∀ x ∈ below S h l e, h' x = h x) : below S h' l e = below S h l e := by
  cases e with
  | empty => rfl
  | table q => exact ih q hh
  | leaf v => rfl

theorem nodes_congr (hh : ∀ x ∈ nodes S h l p, h' x = h x) : nodes S h' l p = nodes S h l p := by
  induction l generalizing p with
  | zero => rfl
  | succ l ih =>
    rw [nodes_succ, nodes_succ, hh p (mem_nodes_self _ _)]
    congr 1
    apply Finset.sum_congr rfl
    intro i hi
    exact below_congr l (fun q => ih) fun x hx => hh x (mem_nodes_below hi hx)

theorem find_congr (ha : ∀ k, k ≤ l → a k ∈ S k) (hh : ∀ x ∈ nodes S h l p, h' x = h x) :
    find h' l p a = find h l p a := by
  induction l generalizing p with
  | zero => rw [find_zero, find_zero, hh p (mem_nodes_self _ _)]
  | succ l ih =>
    simp only [find, hh p (mem_nodes_self _ _)]
    cases he : h p (a (l + 1)) with
    | empty => rfl
    | leaf v => rfl
    | table q =>
      apply ih fun k hk => ha k (Nat.le_succ_of_le hk)
      intro x hx
      exact hh x (mem_nodes_below (ha (l + 1) (Nat.le_refl _)) (by rw [he]; exact hx))

theorem node?_congr (ha : Path S a) (hh : ∀ x ∈ nodes S h l p, h' x = h x) : node? h' l p a = node? h l p a := by
  induction l generalizing p with
  | zero => rfl
  | succ l ih =>
    simp only [node?, hh p (mem_nodes_self _ _)]
    cases he : h p (a (l + 1)) with
    | empty => rfl
    | leaf v => rfl
    | table q =>
      apply ih
      intro x hx
      exact hh x (mem_nodes_below (ha (l + 1)) (by rw [he]; exact hx))

theorem Shape.congr (hs : Shape S h l p) (hh : ∀ x ∈ nodes S h l p, h' x = h x) : Shape S h' l p := by
  induction l generalizing p with
  | zero =>
    intro i q
    rw [hh p (mem_nodes_self _ _)]
    exact hs i q
  | succ l ih =>
    rw [shape_succ] at hs ⊢
    intro i hi
    rw [hh p (mem_nodes_self _ _)]
    have hfit := hs i hi
    cases he : h p i with
    | empty => trivial
    | leaf v => exact absurd hfit (by rw [he]; exact id)
    | table q =>
      rw [he] at hfit
      exact ih hfit fun x hx => hh x (mem_nodes_below hi (by rw [he]; exact hx))

/-! ### Fewer indices of the root -/

section Indices
variable {S' : Nat → Finset I}

theorem nodes_indices (hS : ∀ k, k ≤ l → S k = S' k) (p : P) : nodes S h l p = nodes S' h l p := by
  induction l generalizing p with
  | zero => rfl
  | succ l ih =>
    have hl : ∀ k, k ≤ l → S k = S' k := fun k hk => hS k (Nat.le_succ_of_le hk)
    have hbelow : ∀ e : Entry P E, below S h l e = below S' h l e := by
      intro e
      cases e with
      | empty => rfl
      | table q => exact ih hl q
      | leaf v => rfl
    simp only [nodes_succ, hS (l + 1) (Nat.le_refl _), hbelow]

theorem below_indices (hS : ∀ k, k ≤ l → S k = S' k) (e : Entry P E) : below S h l e = below S' h l e := by
  cases e with
  | empty => rfl
  | table q => exact nodes_indices hS q
  | leaf v => rfl

theorem Shape.indices (hs : Shape S h l p) (hS : ∀ k, k ≤ l → S' k ⊆ S k) : Shape S' h l p := by
  induction l generalizing p with
  | zero => exact hs
  | succ l ih =>
    rw [shape_succ] at hs ⊢
    intro i hi
    have hfit := hs i (hS (l + 1) (Nat.le_refl _) hi)
    cases he : h p i with
    | empty => trivial
    | leaf v => exact absurd hfit (by rw [he]; exact id)
    | table q =>
      rw [he] at hfit
      exact ih hfit fun k hk => hS k (Nat.le_succ_of_le hk)

end Indices

/-! ### An empty page -/

theorem nodes_blank (hp : ∀ i, h p i = .empty) (l : Nat) : nodes S h l p = {p} := by
  cases l with
  | zero => rfl
  | succ l => simp only [nodes_succ, hp, below_empty, Finset.sum_const_zero, Multiset.cons_zero]

theorem find_blank (hp : ∀ i, h p i = .empty) (l : Nat) (a : Nat → I) : find h l p a = none := by
  cases l with
  | zero => rw [find_zero, hp, Entry.leaf?_empty]
  | succ l => exact find_empty (hp _)

theorem shape_blank (hp : ∀ i, h p i = .empty) (l : Nat) : Shape S h l p := by
  cases l with
  | zero =>
    intro i q
    rw [hp]
    exact nofun
  | succ l =>
    rw [shape_succ]
    intro i _
    rw [hp]
    trivial

theorem missing_blank (hp : ∀ i, h p i = .empty) (l : Nat) (a : Nat → I) : missing h l p a = l := by
  cases l with
  | zero => rfl
  | succ l => exact missing_empty (hp _)

/-! ### Paths -/

theorem missing_le (h : Heap P I E) (l : Nat) (p : P) (a : Nat → I) : missing h l p a ≤ l := by
  induction l generalizing p with
  | zero => exact Nat.le_refl 0
  | succ l ih =>
    simp only [missing]
    split
    · exact Nat.le_succ_of_le (ih _)
    · exact Nat.le_refl _

/-- The page of height 0 is found on the way. -/
theorem find_of_node? (hq : node? h l p a = some q) : find h l p a = (h q (a 0)).leaf? := by
  induction l generalizing p with
  | zero =>
    cases hq
    rfl
  | succ l ih =>
    simp only [node?] at hq
    simp only [find]
    split at hq
    · exact ih hq
    · cases hq

theorem find_of_not_node? (hq : node? h l p a = none) : find h l p a = none := by
  induction l generalizing p with
  | zero => cases hq
  | succ l ih =>
    simp only [node?] at hq
    simp only [find]
    split at hq
    · exact ih hq
    · rfl

theorem node?_isSome_iff (h : Heap P I E) (l : Nat) (p : P) (a : Nat → I) :
    (node? h l p a).isSome ↔ missing h l p a = 0 := by
  induction l generalizing p with
  | zero => simp [node?, missing]
  | succ l ih =>
    simp only [node?, missing]
    split
    · exact ih _
    · simp

theorem node?_mem (ha : Path S a) (hq : node? h l p a = some q) : q ∈ nodes S h l p := by
  induction l generalizing p with
  | zero =>
    cases hq
    exact mem_nodes_self 0 _
  | succ l ih =>
    simp only [node?] at hq
    split at hq
    next r hr => exact mem_nodes_below (ha (l + 1)) (by rw [hr]; exact ih hq)
    next => cases hq

theorem find_path (h : Heap P I E) (l : Nat) (p : P) (hab : ∀ k, k ≤ l → a k = b k) :
    find h l p a = find h l p b := by
  induction l generalizing p with
  | zero => rw [find_zero, find_zero, hab 0 (Nat.le_refl 0)]
  | succ l ih =>
    simp only [find, hab (l + 1) (Nat.le_refl _)]
    split
    · exact ih _ fun k hkl => hab k (Nat.le_succ_of_le hkl)
    · rfl

/-- The page that a path leads to holds no page tables. -/
theorem Shape.node (hs : Shape S h l p) (ha : Path S a) (hq : node? h l p a = some q) (i : I) (r : P) :
    h q i ≠ .table r := by
  induction l generalizing p with
  | zero =>
    cases hq
    exact hs i r
  | succ l ih =>
    have hfit := (shape_succ l p).mp hs _ (ha (l + 1))
    simp only [node?] at hq
    split at hq
    next s hps =>
      rw [hps] at hfit
      exact ih hfit hq
    next => cases hq

theorem missing_path (h : Heap P I E) (l : Nat) (p : P) (hab : ∀ k, 0 < k → k ≤ l → a k = b k) :
    missing h l p a = missing h l p b := by
  induction l generalizing p with
  | zero => rfl
  | succ l ih =>
    simp only [missing, hab (l + 1) (Nat.succ_pos l) (Nat.le_refl _)]
    split
    · exact ih _ fun k hk hkl => hab k hk (Nat.le_succ_of_le hkl)
    · rfl

/-! ### A change under one index of the root -/

section Turn
variable [DecidableEq I] {i : I}

theorem nodes_split (hi : i ∈ S (l + 1)) :
    nodes S h (l + 1) p = p ::ₘ (below S h l (h p i) + siblings S h l p i) := by
  rw [nodes_succ, ← Finset.add_sum_erase _ _ hi]
  rfl

/-- Heap `h'` differs from `h` neither in the root's entries at other indices nor in the
pages under them. -/
structure Turn (S : Nat → Finset I) (h h' : Heap P I E) (l : Nat) (p : P) (i : I) : Prop where
  row : ∀ j ∈ S (l + 1), j ≠ i → h' p j = h p j
  pages : ∀ x ∈ siblings S h l p i, h' x = h x

theorem Turn.siblings (ht : Turn S h h' l p i) : siblings S h' l p i = siblings S h l p i := by
  apply Finset.sum_congr rfl
  intro j hj
  rw [ht.row j (Finset.mem_of_mem_erase hj) (Finset.ne_of_mem_erase hj)]
  exact below_congr l (fun q => nodes_congr) fun x hx => ht.pages x (Multiset.mem_sum.mpr ⟨j, hj, hx⟩)

theorem Turn.nodes (ht : Turn S h h' l p i) (hi : i ∈ S (l + 1)) :
    nodes S h' (l + 1) p = p ::ₘ (below S h' l (h' p i) + Radix.siblings S h l p i) := by
  rw [nodes_split hi, ht.siblings]

theorem mem_siblings {j : I} (hj : j ∈ S (l + 1)) (hji : j ≠ i) {x : P} (hx : x ∈ below S h l (h p j)) :
    x ∈ siblings S h l p i :=
  Multiset.mem_sum.mpr ⟨j, Finset.mem_erase.mpr ⟨hji, hj⟩, hx⟩

theorem Turn.find (ht : Turn S h h' l p i) (hb : Path S b) (hbi : b (l + 1) ≠ i) :
    find h' (l + 1) p b = find h (l + 1) p b := by
  simp only [Radix.find, ht.row _ (hb (l + 1)) hbi]
  cases he : h p (b (l + 1)) with
  | empty => rfl
  | leaf v => rfl
  | table q =>
    apply find_congr fun k _ => hb k
    intro x hx
    exact ht.pages x (mem_siblings (hb (l + 1)) hbi (by rw [he]; exact hx))

theorem Turn.shape (ht : Turn S h h' l p i) (hs : Shape S h (l + 1) p) (hi : Fits S h' l (h' p i)) :
    Shape S h' (l + 1) p := by
  rw [shape_succ] at hs ⊢
  intro j hj
  by_cases hji : j = i
  · rw [hji]
    exact hi
  · rw [ht.row j hj hji]
    have hfit := hs j hj
    cases he : h p j with
    | empty => trivial
    | leaf v => exact absurd hfit (by rw [he]; exact id)
    | table q =>
      rw [he] at hfit
      exact Shape.congr hfit fun x hx => ht.pages x (mem_siblings hj hji (by rw [he]; exact hx))

/-- Where the root's page and the pages under the other entries keep their contents. -/
theorem Turn.of_same (hroot : h' p = h p) (hs : ∀ x ∈ Radix.siblings S h l p i, h' x = h x) :
    Turn S h h' l p i :=
  ⟨fun j _ _ => by rw [hroot], hs⟩

end Turn

/-! ### Writing a leaf -/

section Put
variable [DecidableEq I]

/-- Heap `h'` is `h` with the entry at the end of path `a`, in page `q`, replaced. -/
structure Put (S : Nat → Finset I) (h h' : Heap P I E) (l : Nat) (p q : P) (a : Nat → I) (e : Entry P E) :
    Prop where
  path : Path S a
  node : node? h l p a = some q
  nodup : (nodes S h l p).Nodup
  row : h' q = Function.update (h q) (a 0) e
  other : ∀ x ∈ nodes S h l p, x ≠ q → h' x = h x

variable {e : Entry P E}

theorem nodup_split {i : I} (hi : i ∈ S (l + 1)) (hn : (nodes S h (l + 1) p).Nodup) :
    p ∉ below S h l (h p i) ∧ p ∉ siblings S h l p i ∧ (below S h l (h p i)).Nodup ∧
      Disjoint (below S h l (h p i)) (siblings S h l p i) := by
  rw [nodes_split hi, Multiset.nodup_cons, Multiset.mem_add, Multiset.nodup_add] at hn
  exact ⟨fun hm => hn.1 (.inl hm), fun hm => hn.1 (.inr hm), hn.2.1, hn.2.2.2⟩

/-- Going down one level. -/
theorem Put.down {r : P} (hput : Put S h h' (l + 1) p q a e) (hr : h p (a (l + 1)) = .table r) :
    Put S h h' l r q a e ∧ h' p = h p ∧ Turn S h h' l p (a (l + 1)) := by
  have hi := hput.path (l + 1)
  obtain ⟨hpb, hps, hbn, hdis⟩ := nodup_split hi hput.nodup
  have hnode : node? h l r a = some q := (node?_table hr).symm.trans hput.node
  rw [hr, below_table] at hpb hbn hdis
  have hqr : q ∈ nodes S h l r := node?_mem hput.path hnode
  have hpq : p ≠ q := fun hpq => hpb (hpq ▸ hqr)
  refine ⟨⟨hput.path, hnode, hbn, hput.row, fun x hx hxq => hput.other x ?_ hxq⟩,
    hput.other p (mem_nodes_self _ _) hpq, Turn.of_same (hput.other p (mem_nodes_self _ _) hpq) ?_⟩
  · exact mem_nodes_below hi (by rw [hr]; exact hx)
  · intro x hx
    apply hput.other x
    · rw [nodes_split hi]
      exact Multiset.mem_cons_of_mem (Multiset.mem_add.mpr (.inr hx))
    · intro hxq
      exact Multiset.disjoint_left.mp hdis hqr (hxq ▸ hx)

theorem Put.table (hput : Put S h h' (l + 1) p q a e) : ∃ r, h p (a (l + 1)) = .table r := by
  have hnode := hput.node
  simp only [node?] at hnode
  split at hnode
  next r hr => exact ⟨r, hr⟩
  next => cases hnode

theorem Put.node' (hput : Put S h h' l p q a e) : node? h' l p a = some q := by
  induction l generalizing p with
  | zero => exact hput.node
  | succ l ih =>
    obtain ⟨r, hr⟩ := hput.table
    obtain ⟨hdown, hp, -⟩ := hput.down hr
    rw [node?_table (by rw [hp]; exact hr)]
    exact ih hdown

theorem Put.nodes (hput : Put S h h' l p q a e) : nodes S h' l p = nodes S h l p := by
  induction l generalizing p with
  | zero => rfl
  | succ l ih =>
    obtain ⟨r, hr⟩ := hput.table
    obtain ⟨hdown, hp, hturn⟩ := hput.down hr
    have hi := hput.path (l + 1)
    rw [hturn.nodes hi, nodes_split hi, hp, hr, below_table, below_table, ih hdown]

theorem Put.shape (hput : Put S h h' l p q a e) (hs : Shape S h l p) (he : ∀ r, e ≠ .table r) : Shape S h' l p := by
  induction l generalizing p with
  | zero =>
    have hpq : p = q := Option.some.inj hput.node
    intro i r
    rw [hpq, hput.row]
    by_cases hi : i = a 0
    · rw [hi, Function.update_self]
      exact he r
    · rw [Function.update_of_ne hi, ← hpq]
      exact hs i r
  | succ l ih =>
    obtain ⟨r, hr⟩ := hput.table
    obtain ⟨hdown, hp, hturn⟩ := hput.down hr
    apply hturn.shape hs
    have hfit := (shape_succ l p).mp hs _ (hput.path (l + 1))
    rw [hr] at hfit
    rw [hp, hr]
    exact ih hdown hfit

/-- The map changes at this path only. -/
theorem Put.find (hput : Put S h h' l p q a e) (hb : Path S b) :
    find h' l p b = if ∀ k, k ≤ l → b k = a k then e.leaf? else find h l p b := by
  induction l generalizing p with
  | zero =>
    have hpq : p = q := Option.some.inj hput.node
    have hall : (∀ k, k ≤ 0 → b k = a k) ↔ b 0 = a 0 :=
      ⟨fun hk => hk 0 (Nat.le_refl 0), fun h0 k hk => by rw [Nat.le_zero.mp hk]; exact h0⟩
    simp only [find_zero, hall, hpq, hput.row]
    by_cases hba : b 0 = a 0
    · rw [if_pos hba, hba, Function.update_self]
    · rw [if_neg hba, Function.update_of_ne hba]
  | succ l ih =>
    obtain ⟨r, hr⟩ := hput.table
    obtain ⟨hdown, hp, hturn⟩ := hput.down hr
    by_cases hba : b (l + 1) = a (l + 1)
    · have hb' : h p (b (l + 1)) = .table r := by rw [hba]; exact hr
      have hb'' : h' p (b (l + 1)) = .table r := by rw [hp]; exact hb'
      rw [find_table hb', find_table hb'', ih hdown]
      have hall : (∀ k, k ≤ l → b k = a k) ↔ ∀ k, k ≤ l + 1 → b k = a k := by
        constructor
        · intro hk k hkl
          by_cases hkl' : k = l + 1
          · rw [hkl']
            exact hba
          · exact hk k (by omega)
        · exact fun hk k hkl => hk k (Nat.le_succ_of_le hkl)
      simp only [hall]
    · rw [if_neg fun hk => hba (hk (l + 1) (Nat.le_refl _)), hturn.find hb hba]

end Put

/-! ### Hanging in an empty page -/

section Link
variable [DecidableEq I] {c : P} {i : I}

/-- Heap `h'` is `h` with the empty entry `i` of the root naming `c`, which is blank and new. -/
structure Link (S : Nat → Finset I) (h h' : Heap P I E) (l : Nat) (p c : P) (i : I) : Prop where
  index : i ∈ S (l + 1)
  was : h p i = .empty
  nodup : (nodes S h (l + 1) p).Nodup
  new : c ∉ nodes S h (l + 1) p
  row : h' p = Function.update (h p) i (.table c)
  blank : ∀ j, h' c j = .empty
  other : ∀ x ∈ nodes S h (l + 1) p, x ≠ p → h' x = h x

theorem Link.entry (hl : Link S h h' l p c i) : h' p i = .table c := by
  rw [hl.row, Function.update_self]

theorem Link.turn (hl : Link S h h' l p c i) : Turn S h h' l p i := by
  obtain ⟨-, hps, -, -⟩ := nodup_split hl.index hl.nodup
  constructor
  · intro j _ hji
    rw [hl.row, Function.update_of_ne hji]
  · intro x hx
    apply hl.other x
    · rw [nodes_split hl.index]
      exact Multiset.mem_cons_of_mem (Multiset.mem_add.mpr (.inr hx))
    · exact fun hxp => hps (hxp ▸ hx)

theorem Link.nodes (hl : Link S h h' l p c i) : nodes S h' (l + 1) p = c ::ₘ nodes S h (l + 1) p := by
  rw [hl.turn.nodes hl.index, nodes_split hl.index, hl.entry, below_table, nodes_blank hl.blank, hl.was, below_empty,
    zero_add, Multiset.singleton_add, Multiset.cons_swap]

theorem Link.find (hl : Link S h h' l p c i) (hb : Path S b) : find h' (l + 1) p b = find h (l + 1) p b := by
  by_cases hbi : b (l + 1) = i
  · rw [find_table (by rw [hbi]; exact hl.entry), find_blank hl.blank, find_empty (by rw [hbi]; exact hl.was)]
  · exact hl.turn.find hb hbi

theorem Link.shape (hl : Link S h h' l p c i) (hs : Shape S h (l + 1) p) : Shape S h' (l + 1) p := by
  apply hl.turn.shape hs
  rw [hl.entry]
  exact shape_blank hl.blank l

end Link
end Radix
