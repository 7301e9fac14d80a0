import Farron.Umalloc.Heap
import Farron.Umalloc.Spans

/-! The free list of the allocator.

A block is a header and the units that its size counts, itself among them. The free list is a
circle of blocks in address order, the static header first (`Inv`); no two of them touch. The
free blocks and those in use, `used`, are the memory `got` from the system, each byte once. So a
block that is freed lies between two blocks of the circle, and the loop of `free` finds the
place (`scan_eq`). -/
namespace Farron.Umalloc
open Chains Spans

structure Block where
  addr : Nat
  units : Nat
  deriving DecidableEq

namespace Block

/-- Where the block ends. -/
def after (b : Block) : Nat := b.addr + headerSize * b.units

def span (b : Block) : Span := (b.addr, headerSize * b.units)

/-- A block of the heap: above the static header, aligned, and where a `uint` counts its units. -/
structure Proper (base align : Nat) (b : Block) : Prop where
  above : base + headerSize ≤ b.addr
  aligned : b.addr % align = 0
  units : 0 < b.units
  bounded : b.after ≤ 2 ^ 36

end Block

/-- The static header. -/
def root (base : Nat) : Block := ⟨base, 0⟩

structure Inv (base align : Nat) (h : Heap) (ring used : List Block) (got : List Span) : Prop where
  null : 0 < base
  first : ring.head? = some (root base)
  proper : ∀ b ∈ ring, b = root base ∨ b.Proper base align
  proper_used : ∀ b ∈ used, b.Proper base align
  sizes : ∀ b ∈ ring ++ used, h.size b.addr = b.units
  circle : Circle h.ptr (ring.map Block.addr)
  freep : h.freep ∈ ring.map Block.addr
  apart : ring.Pairwise fun b c => b.after < c.addr
  all : ∀ x, hits ((ring ++ used).map Block.span) x = hits got x
  once : ∀ x, hits got x ≤ 1

variable {base align : Nat} {h : Heap} {ring used us ys : List Block} {got : List Span} {b c p : Block} {rounds : Nat}

theorem Block.le_after (b : Block) : b.addr ≤ b.after := Nat.le_add_right _ _

@[simp] theorem root_addr (base : Nat) : (root base).addr = base := rfl
@[simp] theorem root_units (base : Nat) : (root base).units = 0 := rfl
@[simp] theorem root_after (base : Nat) : (root base).after = base := rfl

namespace Inv

theorem le_addr (hi : Inv base align h ring used got) (hb : b ∈ ring) : base ≤ b.addr := by
  rcases hi.proper b hb with rfl | hp
  · exact Nat.le_refl base
  · exact Nat.le_trans (Nat.le_add_right _ _) hp.above

theorem proper_of_pos (hi : Inv base align h ring used got) (hb : b ∈ ring) (hu : 0 < b.units) : b.Proper base align := by
  rcases hi.proper b hb with rfl | hp
  · exact absurd hu (Nat.lt_irrefl 0)
  · exact hp

/-- The order of the blocks in use does not matter. -/
theorem perm {used' : List Block} (hi : Inv base align h ring used got) (hp : used.Perm used') : Inv base align h ring used' got where
  null := hi.null
  first := hi.first
  proper := hi.proper
  proper_used := fun b hb => hi.proper_used b (hp.mem_iff.mpr hb)
  sizes := fun b hb => hi.sizes b ((hp.append_left ring).mem_iff.mpr hb)
  circle := hi.circle
  freep := hi.freep
  apart := hi.apart
  all := fun x => by rw [← hi.all x, hits_perm ((hp.symm.append_left ring).map Block.span)]
  once := hi.once

/-- A block in use is apart from every other block. -/
theorem outside (hi : Inv base align h ring (b :: used) got) (hc : c ∈ ring ++ used) : c.after ≤ b.addr ∨ b.after ≤ c.addr := by
  have hb := hi.proper_used b (by simp)
  by_cases hroot : c = root base
  · left
    rw [hroot, root_after]
    exact Nat.le_trans (Nat.le_add_right _ _) hb.above
  · have hproper : c.Proper base align := by
      rcases List.mem_append.mp hc with hc | hc
      · exact (hi.proper c hc).resolve_left hroot
      · exact hi.proper_used c (by simp [hc])
    have hall : ∀ x, hits [b.span, c.span] x ≤ 1 := by
      intro x
      have hone := hi.once x
      rw [← hi.all x] at hone
      -- `b` and `c` are two of the blocks counted
      have hperm : (ring ++ b :: used).Perm (b :: (ring ++ used)) := List.perm_middle
      rw [hits_perm (hperm.map Block.span)] at hone
      obtain ⟨xs, ys, hsplit⟩ := List.append_of_mem hc
      rw [hsplit] at hone
      simp at hone ⊢
      omega
    have hpos : ∀ s ∈ [b.span, c.span], 0 < s.2 := by
      have hu := hb.units
      have hu' := hproper.units
      simp [Block.span, hu, hu']
    have hapart := disjoint_of_hits hall hpos
    simp only [List.pairwise_cons, List.mem_singleton, forall_eq] at hapart
    rcases hapart.1 with hle | hle
    · exact .inr hle
    · exact .inl hle

end Inv

/-! ### The place of a block -/

/-- A block outside those of the circle lies behind one of them, and in front of the rest. -/
theorem split_at (hne : ring.head? = some c) (hc : c.after ≤ b.addr) (hout : ∀ d ∈ ring, d.after ≤ b.addr ∨ b.after ≤ d.addr)
    (hord : ring.Pairwise fun b c => b.after < c.addr) :
    ∃ us p ys, ring = us ++ p :: ys ∧ p.after ≤ b.addr ∧ ∀ d ∈ ys, b.after ≤ d.addr := by
  induction ring generalizing c with
  | nil => simp at hne
  | cons d rest ih =>
    obtain rfl : d = c := by simpa using hne
    cases hrest : rest with
    | nil => exact ⟨[], d, [], rfl, hc, by simp⟩
    | cons e rest' =>
      subst hrest
      rw [List.pairwise_cons] at hord
      by_cases he : e.after ≤ b.addr
      · obtain ⟨us, p, ys, hsplit, hp, hys⟩ := ih rfl he (fun f hf => hout f (by simp [hf])) hord.2
        exact ⟨d :: us, p, ys, by rw [hsplit]; rfl, hp, hys⟩
      · have hle := (hout e (by simp)).resolve_left he
        refine ⟨[], d, e :: rest', rfl, hc, fun f hf => ?_⟩
        rcases List.mem_cons.mp hf with rfl | hf
        · exact hle
        · have hlt := (List.pairwise_cons.mp hord.2).1 f hf
          have hself := e.le_after
          omega

theorem Inv.split (hi : Inv base align h ring (b :: used) got) :
    ∃ us p ys, ring = us ++ p :: ys ∧ p.after ≤ b.addr ∧ ∀ d ∈ ys, b.after ≤ d.addr := by
  apply split_at hi.first _ (fun d hd => hi.outside (by simp [hd])) hi.apart
  exact Nat.le_trans (Nat.le_add_right _ _) (hi.proper_used b (by simp)).above

/-- What comes behind a block of the circle. -/
theorem Inv.next_cases (hi : Inv base align h (us ++ p :: ys) used got) :
    (ys = [] ∧ h.ptr p.addr = base) ∨ ∃ y ys', ys = y :: ys' ∧ h.ptr p.addr = y.addr ∧ p.after < y.addr := by
  have hcircle := hi.circle
  rw [List.map_append, List.map_cons] at hcircle
  cases ys with
  | nil =>
    refine .inl ⟨rfl, ?_⟩
    rw [List.map_nil] at hcircle
    rw [hcircle.next_last]
    have hfirst := hi.first
    cases us with
    | nil =>
      obtain rfl : p = root base := by simpa using hfirst
      rfl
    | cons u us =>
      obtain rfl : u = root base := by simpa using hfirst
      rfl
  | cons y ys =>
    refine .inr ⟨y, ys, rfl, hcircle.next_eq, ?_⟩
    have hord := hi.apart
    rw [List.pairwise_append, List.pairwise_cons] at hord
    exact hord.2.1.1 y (by simp)

theorem Inv.lt_of_after (hi : Inv base align h ring (b :: used) got) (hp : p ∈ ring) (hle : p.after ≤ b.addr) : p.addr < b.addr := by
  have hb := (hi.proper_used b (by simp)).above
  rcases hi.proper p hp with rfl | hproper
  · exact Nat.lt_of_lt_of_le (Nat.lt_add_of_pos_right (by decide)) hb
  · have hu := hproper.units
    simp only [Block.after, headerSize_eq] at hle
    omega

/-- The loop of `free` ends at the block that `b` goes behind, and nowhere else. -/
theorem Inv.between_iff (hi : Inv base align h (us ++ p :: ys) (b :: used) got) (hp : p.after ≤ b.addr)
    (hys : ∀ d ∈ ys, b.after ≤ d.addr) (hc : c ∈ us ++ p :: ys) : h.Between b.addr c.addr ↔ c = p := by
  have hb := hi.proper_used b (by simp)
  have hbase : base < b.addr := Nat.lt_of_lt_of_le (Nat.lt_add_of_pos_right (by decide)) hb.above
  have hbself := b.le_after
  have hpself := p.le_after
  have hord := hi.apart
  rw [List.pairwise_append, List.pairwise_cons] at hord
  obtain ⟨-, ⟨-, -⟩, hus⟩ := hord
  unfold Heap.Between
  rcases List.mem_append.mp hc with hcu | hcp
  · -- in front of `p`: the next block is not behind `b`
    obtain ⟨u₁, u₂, rfl⟩ := List.append_of_mem hcu
    have hcp : c.after < p.addr := hus c hcu p (by simp)
    have hcself := c.le_after
    have hne : c ≠ p := by
      rintro rfl
      omega
    have hi' := hi
    rw [List.append_assoc, List.cons_append] at hi'
    obtain ⟨hnil, -⟩ | ⟨d, rest, hd, hnext, hlt⟩ := hi'.next_cases
    · simp at hnil
    · have hdp : d.addr ≤ p.addr := by
        cases u₂ with
        | nil =>
          obtain rfl : p = d := by simpa using congrArg List.head? hd
          exact Nat.le_refl _
        | cons u u₂ =>
          obtain rfl : u = d := by simpa using congrArg List.head? hd
          have hup := hus u (by simp) p (by simp)
          have huself := u.le_after
          omega
      simp only [hne, iff_false, hnext]
      omega
  · rcases List.mem_cons.mp hcp with rfl | hcy
    · -- `p` itself
      have hlt := hi.lt_of_after (by simp) hp
      simp only [iff_true]
      obtain ⟨-, hnext⟩ | ⟨y, rest, rfl, hnext, -⟩ := hi.next_cases
      · have hle := hi.le_addr (b := c) (by simp)
        omega
      · have hby := hys y (by simp)
        have hu := hb.units
        simp only [Block.after, headerSize_eq] at hby
        omega
    · -- behind `b`
      obtain ⟨y₁, y₂, rfl⟩ := List.append_of_mem hcy
      have hbc := hys c hcy
      have hcself := c.le_after
      have hu := hb.units
      simp only [Block.after, headerSize_eq] at hbc
      have hlt := hi.lt_of_after (by simp) hp
      have hne : c ≠ p := by
        rintro rfl
        omega
      have hi' := hi
      rw [← List.cons_append, ← List.append_assoc] at hi'
      simp only [hne, iff_false]
      obtain ⟨-, hnext⟩ | ⟨d, rest, -, hnext, hcd⟩ := hi'.next_cases
      · rw [hnext]
        omega
      · rw [hnext]
        omega

/-- So it finds it, wherever it starts. -/
theorem Inv.scan_eq (hi : Inv base align h (us ++ p :: ys) (b :: used) got) (hp : p.after ≤ b.addr)
    (hys : ∀ d ∈ ys, b.after ≤ d.addr) (hr : (us ++ p :: ys).length ≤ rounds) :
    Chains.scan h.ptr (h.Between b.addr) rounds h.freep = some p.addr := by
  obtain ⟨l, hpath, hperm⟩ := hi.circle.path hi.freep
  have hlen := hperm.length_eq
  rw [List.length_map, List.length_cons] at hlen
  have hmem : ∀ a, a ∈ h.freep :: l → ∃ c ∈ us ++ p :: ys, c.addr = a := by
    intro a ha
    exact List.mem_map.mp (hperm.mem_iff.mp ha)
  refine scan_path hpath (hperm.mem_iff.mpr (List.mem_map_of_mem (by simp))) ?_ ?_ (by omega)
  · exact (hi.between_iff hp hys (by simp)).mpr rfl
  · intro a ha hstop
    obtain ⟨c, hc, rfl⟩ := hmem a ha
    rw [(hi.between_iff hp hys hc).mp hstop]

/-! ### Freeing -/

theorem Inv.ne_addr (hi : Inv base align h ring (b :: used) got) (hc : c ∈ ring ++ used) : c.addr ≠ b.addr := by
  have hb := (hi.proper_used b (by simp)).units
  have hself := c.le_after
  intro heq
  rcases hi.outside hc with hle | hle
  · rcases List.mem_append.mp hc with hc | hc
    · exact absurd heq (Nat.ne_of_lt (hi.lt_of_after hc hle))
    · have hu := (hi.proper_used c (by simp [hc])).units
      simp only [Block.after, headerSize_eq] at hle
      omega
  · simp only [Block.after, headerSize_eq] at hle
    omega

/-- Two blocks that touch, as one. -/
theorem Block.Proper.merge (hb : b.Proper base align) (hc : c.Proper base align) (h : b.after = c.addr) :
    Block.Proper base align ⟨b.addr, b.units + c.units⟩ ∧ u32 (b.units + c.units) = b.units + c.units ∧
      Block.after ⟨b.addr, b.units + c.units⟩ = c.after ∧
      ∀ x, (if (Block.span ⟨b.addr, b.units + c.units⟩).Holds x then 1 else 0) =
        (if b.span.Holds x then 1 else 0) + if c.span.Holds x then 1 else 0 := by
  have hafter : Block.after ⟨b.addr, b.units + c.units⟩ = c.after := by
    simp only [Block.after, headerSize_eq] at h ⊢
    omega
  have hu := hb.units
  have hend := hc.bounded
  have habove := hb.above
  refine ⟨⟨habove, hb.aligned, by simp; omega, by rw [hafter]; exact hend⟩, ?_, hafter, fun x => ?_⟩
  · apply u32_of_lt
    simp only [Block.after, headerSize_eq] at h hend habove
    omega
  · have hcut := holds_cut b.addr (headerSize * b.units) (headerSize * c.units) x
    rw [← Nat.mul_add] at hcut
    unfold Block.after at h
    rw [h] at hcut
    exact hcut

/-- What `joinNext` makes of a block `b` that goes between `p` and `ys`: the block `b'` in front of `ys'`. -/
structure Joined (base align : Nat) (h h' : Heap) (us : List Block) (p b b' : Block) (ys ys' : List Block) : Prop where
  addr : b'.addr = b.addr
  units : b.units ≤ b'.units
  proper : b'.Proper base align
  size : h'.size b.addr = b'.units
  other : ∀ a, a ≠ b.addr → h'.size a = h.size a ∧ h'.ptr a = h.ptr a
  path : Path h'.ptr b.addr ((ys' ++ us).map Block.addr) p.addr
  apart : ∀ d ∈ ys', b'.after < d.addr
  sub : ys'.Sublist ys
  same : ∀ x, hits ((b' :: ys').map Block.span) x = hits ((b :: ys).map Block.span) x

theorem Inv.joinNext (hi : Inv base align h (us ++ p :: ys) (b :: used) got) (hys : ∀ d ∈ ys, b.after ≤ d.addr) :
    ∃ b' ys', Joined base align h (h.joinNext b.addr p.addr) us p b b' ys ys' := by
  have hb := hi.proper_used b (by simp)
  have hsize : h.size b.addr = b.units := hi.sizes b (by simp)
  have hafter : h.after b.addr = b.after := by rw [Heap.after, hsize, Block.after]
  have hcircle := hi.circle
  rw [List.map_append, List.map_cons, circle_append, ← List.map_append] at hcircle
  have hne : ∀ c ∈ us ++ p :: ys, c.addr ≠ b.addr := fun c hc => hi.ne_addr (List.mem_append_left _ hc)
  have hord := hi.apart
  rw [List.pairwise_append, List.pairwise_cons] at hord
  obtain ⟨-, ⟨-, hord⟩, -⟩ := hord
  -- the block as it is, in front of the one that followed `p`
  have hkeep : h.after b.addr ≠ h.ptr p.addr → (∀ d ∈ ys, b.after < d.addr) →
      Joined base align h (h.joinNext b.addr p.addr) us p b b ys ys := by
    intro htouch hlt
    have hjoin : h.joinNext b.addr p.addr = h.setPtr b.addr (h.ptr p.addr) := by
      unfold Heap.joinNext
      rw [if_neg htouch]
    rw [hjoin]
    refine ⟨rfl, Nat.le_refl _, hb, hsize, fun a ha => ⟨rfl, Function.update_of_ne ha _ _⟩, ?_, hlt, List.Sublist.refl _, fun _ => rfl⟩
    apply hcircle.enter (Function.update_self _ _ _)
    intro x hx
    obtain ⟨c, hc, rfl⟩ := List.mem_map.mp hx
    apply Function.update_of_ne
    apply hne
    rcases List.mem_append.mp hc with hc | hc <;> simp [hc]
  obtain ⟨rfl, hnext⟩ | ⟨y, rest, rfl, hnext, -⟩ := hi.next_cases
  · refine ⟨b, [], hkeep ?_ (by simp)⟩
    rw [hafter, hnext]
    have habove := hb.above
    have hself := b.le_after
    simp only [headerSize_eq] at habove
    omega
  · rw [List.pairwise_cons] at hord
    have hysize : h.size y.addr = y.units := hi.sizes y (by simp)
    have hle := hys y (by simp)
    by_cases htouch : b.after = y.addr
    · have hyproper : y.Proper base align := by
        refine (hi.proper y (by simp)).resolve_left ?_
        rintro rfl
        have habove := hb.above
        simp only [root_addr, headerSize_eq] at htouch habove
        have hself := b.le_after
        omega
      obtain ⟨hproper, hadd, hend, hspan⟩ := hb.merge hyproper htouch
      have hjoin : h.joinNext b.addr p.addr =
          (h.setSize b.addr (b.units + y.units)).setPtr b.addr (h.ptr y.addr) := by
        unfold Heap.joinNext
        rw [hafter, hnext, if_pos htouch, hsize, hysize, hadd]
      refine ⟨⟨b.addr, b.units + y.units⟩, rest, ?_⟩
      rw [hjoin]
      refine ⟨rfl, Nat.le_add_right _ _, hproper, Function.update_self _ _ _, ?_, ?_, ?_, List.sublist_cons_self _ _, ?_⟩
      · exact fun a ha => ⟨Function.update_of_ne ha _ _, Function.update_of_ne ha _ _⟩
      · apply hcircle.2.enter (Function.update_self _ _ _)
        intro x hx
        obtain ⟨c, hc, rfl⟩ := List.mem_map.mp hx
        apply Function.update_of_ne
        apply hne
        rcases List.mem_append.mp hc with hc | hc <;> simp [hc]
      · intro d hd
        rw [hend]
        exact hord.1 d hd
      · intro x
        simp only [List.map_cons, hits_cons, hspan]
        omega
    · refine ⟨b, y :: rest, hkeep ?_ ?_⟩
      · rw [hafter, hnext]
        exact htouch
      · intro d hd
        have hyself := y.le_after
        rcases List.mem_cons.mp hd with rfl | hd
        · omega
        · have hlt := hord.1 d hd
          omega

/-- What `joinPrev` makes of it: the blocks `zs`, in the place of `p`. -/
structure Placed (base align : Nat) (h' h'' : Heap) (us : List Block) (p b' : Block) (ys' zs : List Block) : Prop where
  circle : Circle h''.ptr ((us ++ zs ++ ys').map Block.addr)
  head : ∃ z zs', zs = z :: zs' ∧ z.addr = p.addr ∧ (p = root base → z = p)
  sizes : ∀ z ∈ zs, h''.size z.addr = z.units
  other : ∀ a, a ≠ p.addr → h''.size a = h'.size a
  proper : ∀ z ∈ zs, z = root base ∨ z.Proper base align
  units : ∃ z ∈ zs, b'.units ≤ z.units
  apart : (zs ++ ys').Pairwise fun b c => b.after < c.addr
  front : ∀ z ∈ zs, p.addr ≤ z.addr
  same : ∀ x, hits (zs.map Block.span) x = hits ([p, b'].map Block.span) x

theorem Inv.joinPrev {h' : Heap} {b' : Block} {ys' : List Block} (hi : Inv base align h (us ++ p :: ys) (b :: used) got)
    (hp : p.after ≤ b.addr) (hj : Joined base align h h' us p b b' ys ys') :
    ∃ zs, Placed base align h' (h'.joinPrev b.addr p.addr) us p b' ys' zs := by
  have hpb : p.addr ≠ b.addr := hi.ne_addr (by simp)
  have hpsize : h'.size p.addr = p.units := by
    rw [(hj.other _ hpb).1]
    exact hi.sizes p (by simp)
  have hafter : h'.after p.addr = p.after := by rw [Heap.after, hpsize, Block.after]
  have hord := hi.apart
  rw [List.pairwise_append, List.pairwise_cons] at hord
  obtain ⟨-, ⟨hpys, hordys⟩, hus⟩ := hord
  have hordys' := hordys.sublist hj.sub
  have hmem : ∀ d ∈ ys', d ∈ ys := fun d hd => hj.sub.subset hd
  -- no other block of the circle is where `p` is
  have hne : ∀ x ∈ (ys' ++ us).map Block.addr, x ≠ p.addr := by
    intro x hx
    obtain ⟨c, hc, rfl⟩ := List.mem_map.mp hx
    rcases List.mem_append.mp hc with hc | hc
    · have hlt := hpys c (hmem c hc)
      have hself := p.le_after
      omega
    · have hlt := hus c hc p (by simp)
      have hself := c.le_after
      omega
  have hproper := hi.proper p (by simp)
  by_cases htouch : p.after = b.addr
  · have hpproper : p.Proper base align := by
      refine hproper.resolve_left ?_
      rintro rfl
      have habove := (hi.proper_used b (by simp)).above
      simp only [root_after, headerSize_eq] at htouch habove
      omega
    obtain ⟨hmproper, hadd, hend, hspan⟩ := hpproper.merge hj.proper (htouch.trans hj.addr.symm)
    have hjoin : h'.joinPrev b.addr p.addr = (h'.setSize p.addr (p.units + b'.units)).setPtr p.addr (h'.ptr b.addr) := by
      unfold Heap.joinPrev
      rw [hafter, if_pos htouch, hpsize, hj.size, hadd]
    refine ⟨[⟨p.addr, p.units + b'.units⟩], ?_⟩
    rw [hjoin]
    constructor
    · rw [List.append_assoc, List.map_append, List.singleton_append, List.map_cons, circle_append, ← List.map_append]
      exact hj.path.enter (Function.update_self _ _ _) fun x hx => Function.update_of_ne (hne x hx) _ _
    · refine ⟨_, [], rfl, rfl, ?_⟩
      rintro rfl
      exact absurd hpproper.units (Nat.lt_irrefl 0)
    · simp
    · exact fun a ha => Function.update_of_ne ha _ _
    · simpa using Or.inr hmproper
    · exact ⟨⟨p.addr, p.units + b'.units⟩, by simp, Nat.le_add_left _ _⟩
    · rw [List.singleton_append, List.pairwise_cons]
      refine ⟨fun d hd => ?_, hordys'⟩
      rw [hend]
      exact hj.apart d hd
    · simp
    · intro x
      simp only [List.map_cons, List.map_nil, hits_cons, hits_nil, hspan]
      omega
  · have hjoin : h'.joinPrev b.addr p.addr = h'.setPtr p.addr b.addr := by
      unfold Heap.joinPrev
      rw [hafter, if_neg htouch]
    refine ⟨[p, b'], ?_⟩
    rw [hjoin]
    constructor
    · rw [List.append_assoc, List.map_append, List.cons_append, List.singleton_append, List.map_cons, circle_append,
        ← List.map_append, List.cons_append, List.map_cons, path_cons, hj.addr]
      refine ⟨Function.update_self _ _ _, hj.path.enter (Function.update_of_ne hpb.symm _ _) ?_⟩
      exact fun x hx => Function.update_of_ne (hne x hx) _ _
    · exact ⟨p, [b'], rfl, rfl, fun _ => rfl⟩
    · simp [hpsize, hj.addr, hj.size]
    · exact fun a _ => rfl
    · simpa using ⟨hproper, Or.inr hj.proper⟩
    · exact ⟨b', by simp, Nat.le_refl _⟩
    · simp only [List.cons_append, List.nil_append, List.pairwise_cons, List.mem_cons]
      refine ⟨?_, hj.apart, hordys'⟩
      rintro d (rfl | hd)
      · rw [hj.addr]
        omega
      · exact hpys d (hmem d hd)
    · have hpself := p.le_after
      have hle : p.addr ≤ b'.addr := by
        rw [hj.addr]
        omega
      simp [hle]
    · exact fun _ => rfl

/-- Blocks in use are not where a block of the circle is. -/
theorem Inv.used_ne (hi : Inv base align h ring used got) (hp : p ∈ ring) (hc : c ∈ used) : c.addr ≠ p.addr := by
  have hi' := hi.perm (List.perm_cons_erase hc)
  exact (hi'.ne_addr (by simp [hp])).symm

/-- A block in use is freed. -/
theorem Inv.free (hi : Inv base align h ring (b :: used) got) :
    ∃ h' ring', (∀ rounds, ring.length ≤ rounds → Umalloc.free rounds h (b.addr + headerSize) = some h') ∧
      Inv base align h' ring' used got ∧ ∃ z ∈ ring', b.units ≤ z.units := by
  obtain ⟨us, p, ys, rfl, hp, hys⟩ := hi.split
  obtain ⟨b', ys', hj⟩ := hi.joinNext hys
  obtain ⟨zs, hz⟩ := hi.joinPrev hp hj
  obtain ⟨z, zs', rfl, hzaddr, hzroot⟩ := hz.head
  have hord := hi.apart
  rw [List.pairwise_append, List.pairwise_cons] at hord
  obtain ⟨hordus, -, hus⟩ := hord
  refine ⟨{ (h.joinNext b.addr p.addr).joinPrev b.addr p.addr with freep := p.addr }, us ++ z :: zs' ++ ys',
    fun rounds hr => ?_, ?_, ?_⟩
  · simp only [Umalloc.free, Nat.add_sub_cancel, hi.scan_eq hp hys hr]
    rfl
  · constructor
    · exact hi.null
    · have hfirst := hi.first
      cases us with
      | nil =>
        have hroot : p = root base := by simpa using hfirst
        simpa [hroot] using hzroot hroot
      | cons u us => simpa using hfirst
    · intro c hc
      rcases List.mem_append.mp hc with hc | hc
      · rcases List.mem_append.mp hc with hc | hc
        · exact hi.proper c (by simp [hc])
        · exact hz.proper c hc
      · exact hi.proper c (by simp [hj.sub.subset hc])
    · exact fun c hc => hi.proper_used c (by simp [hc])
    · -- the sizes of the blocks that were there before
      have hold : ∀ c ∈ us ++ p :: ys ++ used, c.addr ≠ p.addr → h.size c.addr = c.units →
          ((h.joinNext b.addr p.addr).joinPrev b.addr p.addr).size c.addr = c.units := by
        intro c hc hcp hsize
        rw [hz.other _ hcp, (hj.other _ (hi.ne_addr hc)).1, hsize]
      intro c hc
      rcases List.mem_append.mp hc with hc | hc
      · rcases List.mem_append.mp hc with hc | hc
        · rcases List.mem_append.mp hc with hc | hc
          · refine hold c (by simp [hc]) ?_ (hi.sizes c (by simp [hc]))
            have hlt := hus c hc p (by simp)
            have hself := c.le_after
            omega
          · exact hz.sizes c hc
        · have hcy := hj.sub.subset hc
          refine hold c (by simp [hcy]) ?_ (hi.sizes c (by simp [hcy]))
          have hlt := List.rel_of_pairwise_cons (List.pairwise_append.mp hi.apart).2.1 hcy
          have hself := p.le_after
          omega
      · exact hold c (by simp [hc]) (hi.used_ne (by simp) (by simp [hc])) (hi.sizes c (by simp [hc]))
    · exact hz.circle
    · simp [hzaddr]
    · rw [List.append_assoc, List.pairwise_append]
      refine ⟨hordus, hz.apart, fun c hc d hd => ?_⟩
      have hlt := hus c hc p (by simp)
      rcases List.mem_append.mp hd with hd | hd
      · have hle := hz.front d hd
        omega
      · exact hus c hc d (by simp [hj.sub.subset hd])
    · intro x
      have hall := hi.all x
      have hzsame := hz.same x
      have hjsame := hj.same x
      simp only [List.map_append, List.map_cons, List.map_nil, hits_append, hits_cons, hits_nil] at hall hzsame hjsame ⊢
      omega
    · exact hi.once
  · obtain ⟨w, hw, hle⟩ := hz.units
    refine ⟨w, ?_, Nat.le_trans hj.units hle⟩
    exact List.mem_append_left _ (List.mem_append_right _ hw)

end Farron.Umalloc
