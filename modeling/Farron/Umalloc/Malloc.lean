import Farron.Umalloc.Blocks

/-! What `malloc` does to the free list.

The search goes once around the circle: it ends at the first block that is large enough
(`search_path`), or comes back to where it started and asks for more memory. What it is given is
a block like any other that is freed (`Inv.morecore`), so a second round finds it. Of the system
call only this much is assumed: that it answers, with -1 or with fresh memory above what it gave
before (`Grants`). -/
namespace Farron.Umalloc
open Chains Spans

/-- What the system call for `n` bytes may answer: nothing, or memory above the static header and all it has given. -/
inductive Answer (base align : Nat) (got : List Span) (n : Nat) : Option Nat → List Span → Prop
  | fails : Answer base align got n none got
  | grows (a : Nat) (above : base + headerSize ≤ a) (aligned : a % align = 0)
      (fresh : ∀ r ∈ got, r.1 + r.2 ≤ a) (bounded : a + n ≤ 2 ^ 36) : Answer base align got n (some a) ((a, n) :: got)

/-- `got` is what the system call has given so far. -/
def Grants {σ : Type} (base align : Nat) (sbrk : Int → σ → Option (Option Nat × σ)) (got : σ → List Span) : Prop :=
  ∀ (n : Nat) s, 0 < n → n < 2 ^ 31 → ∃ r s', sbrk n s = some (r, s') ∧ Answer base align (got s) n r (got s')

variable {σ : Type} {base align : Nat} {sbrk : Int → σ → Option (Option Nat × σ)} {h h' : Heap} {s : σ}
  {ring used us ys : List Block} {got : List Span} {p q : Block} {nunits : Nat}

/-! ### Taking a block -/

/-- The search may start at any block of the circle. -/
theorem Inv.setFreep (hi : Inv base align h ring used got) (hq : q ∈ ring) : Inv base align { h with freep := q.addr } ring used got where
  null := hi.null
  first := hi.first
  proper := hi.proper
  proper_used := hi.proper_used
  sizes := hi.sizes
  circle := hi.circle
  freep := List.mem_map_of_mem hq
  apart := hi.apart
  all := hi.all
  once := hi.once

/-- A block is passed over, and is in use. -/
theorem Inv.pass (hi : Inv base align h (us ++ q :: p :: ys) used got) (hp : p.Proper base align) (hfree : h.freep ≠ p.addr) :
    Inv base align (h.setPtr q.addr (h.ptr p.addr)) (us ++ q :: ys) (p :: used) got := by
  have hord := hi.apart
  rw [List.pairwise_append, List.pairwise_cons, List.pairwise_cons] at hord
  obtain ⟨hordus, ⟨hq, -, hordys⟩, hus⟩ := hord
  have hcircle := hi.circle
  rw [List.map_append, List.map_cons, List.map_cons, circle_append, List.cons_append, path_cons, ← List.map_append] at hcircle
  have hqself := q.le_after
  have hring : ∀ c ∈ us ++ q :: ys, c ∈ us ++ q :: p :: ys := by
    intro c hc
    simp only [List.mem_append, List.mem_cons] at hc ⊢
    tauto
  constructor
  · exact hi.null
  · have hfirst := hi.first
    cases us <;> simpa using hfirst
  · exact fun c hc => hi.proper c (hring c hc)
  · intro c hc
    rcases List.mem_cons.mp hc with rfl | hc
    · exact hp
    · exact hi.proper_used c hc
  · intro c hc
    refine hi.sizes c ?_
    simp only [List.mem_append, List.mem_cons] at hc ⊢
    tauto
  · rw [List.map_append, List.map_cons, circle_append, ← List.map_append]
    apply hcircle.2.enter (Function.update_self _ _ _)
    intro x hx
    apply Function.update_of_ne
    obtain ⟨c, hc, rfl⟩ := List.mem_map.mp hx
    have hcself := c.le_after
    rcases List.mem_append.mp hc with hc | hc
    · have hlt := hq c (by simp [hc])
      omega
    · have hlt := hus c hc q (by simp)
      omega
  · have hmem := hi.freep
    simpa [hfree] using hmem
  · rw [List.pairwise_append, List.pairwise_cons]
    refine ⟨hordus, ⟨fun c hc => hq c (by simp [hc]), hordys⟩, fun c hc d hd => hus c hc d ?_⟩
    rcases List.mem_cons.mp hd with rfl | hd <;> simp [*]
  · intro x
    have hall := hi.all x
    simp only [List.map_append, List.map_cons, hits_append, hits_cons] at hall ⊢
    omega
  · exact hi.once

/-- The tail of a block, `nunits` units. -/
def tail (p : Block) (nunits : Nat) : Block := ⟨p.addr + headerSize * (p.units - nunits), nunits⟩

theorem tail_spec (hp : p.Proper base align) (halign : align ∣ headerSize) (hpos : 0 < nunits) (hlt : nunits < p.units) :
    (tail p nunits).Proper base align ∧ Block.Proper base align ⟨p.addr, p.units - nunits⟩ ∧
      (tail p nunits).after = p.after ∧ Block.after ⟨p.addr, p.units - nunits⟩ = (tail p nunits).addr ∧
      p.addr < (tail p nunits).addr ∧
      ∀ x, (if p.span.Holds x then 1 else 0) =
        (if (Block.span ⟨p.addr, p.units - nunits⟩).Holds x then 1 else 0) + if (tail p nunits).span.Holds x then 1 else 0 := by
  have hadd : p.units - nunits + nunits = p.units := Nat.sub_add_cancel (Nat.le_of_lt hlt)
  have hafter : (tail p nunits).after = p.after := by
    simp only [Block.after, tail, headerSize_eq]
    omega
  have hend := hp.bounded
  have habove := hp.above
  obtain ⟨d, hd⟩ := halign
  refine ⟨⟨Nat.le_trans habove (Nat.le_add_right _ _), ?_, hpos, by rw [hafter]; exact hend⟩,
    ⟨habove, hp.aligned, by simp only; omega, ?_⟩, hafter, rfl, ?_, fun x => ?_⟩
  · rw [tail, hd, Nat.mul_assoc, Nat.add_mul_mod_self_left]
    exact hp.aligned
  · simp only [Block.after, headerSize_eq] at hend ⊢
    omega
  · simp only [tail, headerSize_eq]
    omega
  · have hcut := holds_cut p.addr (headerSize * (p.units - nunits)) (headerSize * nunits) x
    rw [← Nat.mul_add, hadd] at hcut
    exact hcut

/-- A block is cut in two, and its tail is in use. -/
theorem Inv.cut (halign : align ∣ headerSize) (hi : Inv base align h (us ++ p :: ys) used got) (hpos : 0 < nunits)
    (hlt : nunits < p.units) :
    Inv base align ((h.setSize p.addr (p.units - nunits)).setSize (tail p nunits).addr nunits)
      (us ++ ⟨p.addr, p.units - nunits⟩ :: ys) (tail p nunits :: used) got := by
  have hpp := hi.proper_of_pos (b := p) (by simp) (by omega)
  obtain ⟨htail, hrest, hafter, hseam, hgt, hspans⟩ := tail_spec hpp halign hpos hlt
  have hord := hi.apart
  rw [List.pairwise_append, List.pairwise_cons] at hord
  obtain ⟨hordus, ⟨hp, hordys⟩, hus⟩ := hord
  have htself := (tail p nunits).le_after
  -- where no other block begins
  have hne : ∀ c ∈ us ++ ys ++ used, c.addr ≠ p.addr ∧ c.addr ≠ (tail p nunits).addr := by
    intro c hc
    have hcself := c.le_after
    have htu := htail.units
    have htafter : (tail p nunits).addr < (tail p nunits).after := by
      simp only [Block.after, headerSize_eq]
      omega
    have hsides : c.addr < p.addr ∨ p.after ≤ c.addr := by
      simp only [List.mem_append] at hc
      rcases hc with (hc | hc) | hc
      · have hlt := hus c hc p (by simp)
        omega
      · have hlt := hp c hc
        omega
      · have hcu := (hi.proper_used c hc).units
        rcases (hi.perm (List.perm_cons_erase hc)).outside (c := p) (by simp) with hout | hout
        · exact .inr hout
        · simp only [Block.after, headerSize_eq] at hout
          omega
    omega
  constructor
  · exact hi.null
  · have hfirst := hi.first
    cases us with
    | nil =>
      obtain rfl : p = root base := by simpa using hfirst
      exact absurd hlt (Nat.not_lt_zero _)
    | cons u us => simpa using hfirst
  · intro c hc
    simp only [List.mem_append, List.mem_cons] at hc
    rcases hc with hc | rfl | hc
    · exact hi.proper c (by simp [hc])
    · exact .inr hrest
    · exact hi.proper c (by simp [hc])
  · intro c hc
    rcases List.mem_cons.mp hc with rfl | hc
    · exact htail
    · exact hi.proper_used c hc
  · have hother : ∀ c ∈ us ++ ys ++ used,
        ((h.setSize p.addr (p.units - nunits)).setSize (tail p nunits).addr nunits).size c.addr = c.units := by
      intro c hc
      obtain ⟨hcp, hcb⟩ := hne c hc
      simp only [Heap.setSize_size, Function.update_of_ne hcb, Function.update_of_ne hcp]
      apply hi.sizes
      simp only [List.mem_append, List.mem_cons] at hc ⊢
      tauto
    intro c hc
    simp only [List.mem_append, List.mem_cons] at hc
    rcases hc with (hc | rfl | hc) | rfl | hc
    · exact hother c (by simp [hc])
    · simp [Nat.ne_of_lt hgt]
    · exact hother c (by simp [hc])
    · simp [tail]
    · exact hother c (by simp [hc])
  · have hcircle := hi.circle
    rw [List.map_append, List.map_cons] at hcircle ⊢
    exact hcircle
  · have hmem := hi.freep
    simpa using hmem
  · rw [List.pairwise_append, List.pairwise_cons]
    refine ⟨hordus, ⟨fun c hc => ?_, hordys⟩, fun c hc d hd => ?_⟩
    · have hlt := hp c hc
      omega
    · rcases List.mem_cons.mp hd with rfl | hd
      · exact hus c hc p (by simp)
      · exact hus c hc d (by simp [hd])
  · intro x
    have hall := hi.all x
    simp only [List.map_append, List.map_cons, hits_append, hits_cons, hspans] at hall ⊢
    omega
  · exact hi.once

theorem Inv.take (halign : align ∣ headerSize) (hi : Inv base align h (us ++ q :: p :: ys) used got) (hpos : 0 < nunits)
    (hle : nunits ≤ p.units) :
    ∃ b ring', b.units = nunits ∧ (h.take nunits q.addr p.addr).1 = b.addr + headerSize ∧
      Inv base align (h.take nunits q.addr p.addr).2 ring' (b :: used) got := by
  have hpp := hi.proper_of_pos (b := p) (by simp) (by omega)
  have hsize : h.size p.addr = p.units := hi.sizes p (by simp)
  -- the search starts in front of the block from now on
  have hi' := hi.setFreep (q := q) (by simp)
  by_cases hexact : p.units = nunits
  · have hne : q.addr ≠ p.addr := by
      have hord := List.rel_of_pairwise_cons (List.pairwise_append.mp hi.apart).2.1 (List.mem_cons_self (a := p))
      have hself := q.le_after
      omega
    refine ⟨p, us ++ q :: ys, hexact, by simp [Heap.take, hsize, hexact], ?_⟩
    have htake : (h.take nunits q.addr p.addr).2 = { h with freep := q.addr }.setPtr q.addr (h.ptr p.addr) := by
      simp [Heap.take, hsize, hexact, Heap.setPtr]
    rw [htake]
    exact hi'.pass hpp hne
  · have hlt : nunits < p.units := Nat.lt_of_le_of_ne hle (Ne.symm hexact)
    rw [← List.singleton_append, ← List.append_assoc] at hi'
    refine ⟨tail p nunits, us ++ [q] ++ ⟨p.addr, p.units - nunits⟩ :: ys, rfl, ?_, ?_⟩
    · simp [Heap.take, hsize, hexact, Heap.after, tail]
    · have htake : (h.take nunits q.addr p.addr).2 =
          ({ h with freep := q.addr }.setSize p.addr (p.units - nunits)).setSize (tail p nunits).addr nunits := by
        simp [Heap.take, hsize, hexact, Heap.setSize, Heap.after, tail]
      rw [htake]
      exact hi'.cut halign hpos hlt

/-! ### The list -/

theorem Inv.freep_ne (hi : Inv base align h ring used got) : h.freep ≠ 0 := by
  obtain ⟨c, hc, heq⟩ := List.mem_map.mp hi.freep
  have hbase := hi.le_addr hc
  have hnull := hi.null
  omega

theorem Inv.start_of_ne (hi : Inv base align h ring used got) : h.start base = h := by
  unfold Heap.start
  rw [if_neg hi.freep_ne]

/-- The list of the static header alone. -/
theorem Inv.start (hbase : 0 < base) (hfreep : h.freep = 0) : Inv base align (h.start base) [root base] [] [] := by
  have hstart : h.start base = { (h.setPtr base base).setSize base 0 with freep := base } := by
    unfold Heap.start
    rw [if_pos hfreep]
  rw [hstart]
  refine ⟨hbase, rfl, by simp, by simp, by simp, ?_, by simp, by simp, fun x => ?_, by simp⟩
  · exact Function.update_self _ _ _
  · have hno : ¬ (base ≤ x ∧ x < base) := by omega
    simp [Block.span, Span.Holds, hno]

/-! ### The search -/

/-- What is left of the loop of `malloc` where it asks for more memory. -/
def grow (sbrk : Int → σ → Option (Option Nat × σ)) (nunits rounds : Nat) (h : Heap) (s : σ) : Option (Nat × Heap × σ) := do
  let (p, h, s) ← morecore sbrk rounds h s nunits
  if p = 0 then return (0, h, s) else search sbrk nunits rounds p (h.ptr p) h s

theorem search_succ (nunits rounds prevp p : Nat) (h : Heap) (s : σ) :
    search sbrk nunits (rounds + 1) prevp p h s =
      if h.size p ≥ nunits then some ((h.take nunits prevp p).1, (h.take nunits prevp p).2, s)
      else if p = h.freep then grow sbrk nunits rounds h s else search sbrk nunits rounds p (h.ptr p) h s := rfl

/-- Once around the circle: the first block that is large enough is taken, or there is none. -/
theorem search_path (sbrk : Int → σ → Option (Option Nat × σ)) (s : σ) (nunits : Nat) {l : List Nat} {prevp : Nat} (hpath : Path h.ptr prevp l h.freep) (hn : h.freep ∉ l) :
    (∃ q, q ∈ prevp :: l ∧ nunits ≤ h.size (h.ptr q) ∧ ∀ rounds, l.length < rounds →
        search sbrk nunits rounds prevp (h.ptr prevp) h s =
          some ((h.take nunits q (h.ptr q)).1, (h.take nunits q (h.ptr q)).2, s)) ∨
      ((∀ a ∈ h.freep :: l, h.size a < nunits) ∧
        ∀ rounds, search sbrk nunits (rounds + l.length + 1) prevp (h.ptr prevp) h s = grow sbrk nunits rounds h s) := by
  induction l generalizing prevp with
  | nil =>
    have hnext : h.ptr prevp = h.freep := hpath
    by_cases hfit : nunits ≤ h.size h.freep
    · refine .inl ⟨prevp, by simp, by rw [hnext]; exact hfit, fun rounds hr => ?_⟩
      obtain ⟨rounds, rfl⟩ := Nat.exists_eq_succ_of_ne_zero (Nat.ne_zero_of_lt hr)
      rw [search_succ, if_pos (by rw [hnext]; exact hfit)]
    · refine .inr ⟨by simpa using hfit, fun rounds => ?_⟩
      rw [search_succ, if_neg (by rw [hnext]; exact hfit), if_pos hnext]
      rfl
  | cons a l ih =>
    obtain ⟨hnext, hrest⟩ := hpath
    obtain ⟨hna, hnl⟩ : h.freep ≠ a ∧ h.freep ∉ l := by simpa using hn
    by_cases hfit : nunits ≤ h.size a
    · refine .inl ⟨prevp, by simp, by rw [hnext]; exact hfit, fun rounds hr => ?_⟩
      obtain ⟨rounds, rfl⟩ := Nat.exists_eq_succ_of_ne_zero (Nat.ne_zero_of_lt hr)
      rw [search_succ, if_pos (by rw [hnext]; exact hfit)]
    · have hstep : ∀ rounds, search sbrk nunits (rounds + 1) prevp (h.ptr prevp) h s =
          search sbrk nunits rounds a (h.ptr a) h s := by
        intro rounds
        rw [search_succ, hnext, if_neg hfit, if_neg hna.symm]
      rcases ih hrest hnl with ⟨q, hq, hqfit, hrun⟩ | ⟨hsmall, hrun⟩
      · refine .inl ⟨q, List.mem_cons_of_mem _ hq, hqfit, fun rounds hr => ?_⟩
        obtain ⟨rounds, rfl⟩ := Nat.exists_eq_succ_of_ne_zero (Nat.ne_zero_of_lt hr)
        rw [hstep]
        exact hrun rounds (by simpa using hr)
      · refine .inr ⟨?_, fun rounds => ?_⟩
        · intro b hb
          simp only [List.mem_cons] at hb
          rcases hb with rfl | rfl | hb
          · exact hsmall _ (by simp)
          · omega
          · exact hsmall b (by simp [hb])
        · rw [List.length_cons, ← Nat.add_assoc, hstep]
          exact hrun rounds

/-- The addresses of the circle are different. -/
theorem Inv.nodup (hi : Inv base align h ring used got) : (ring.map Block.addr).Nodup := by
  rw [List.nodup_iff_pairwise_ne, List.pairwise_map]
  refine hi.apart.imp fun {b c} hlt heq => ?_
  have hself := b.le_after
  omega

/-- A block that is large enough has one in front of it. -/
theorem Inv.adjacent (hi : Inv base align h ring used got) (hq : q ∈ ring) (hpos : 0 < nunits) (hfit : nunits ≤ h.size (h.ptr q.addr)) :
    ∃ us p ys, ring = us ++ q :: p :: ys ∧ h.ptr q.addr = p.addr ∧ nunits ≤ p.units := by
  obtain ⟨us, zs, rfl⟩ := List.append_of_mem hq
  rcases hi.next_cases with ⟨rfl, hnext⟩ | ⟨p, ys, rfl, hnext, -⟩
  · -- the static header is not large enough
    have hroot : root base ∈ us ++ [q] := List.mem_of_mem_head? hi.first
    have hsize := hi.sizes _ (List.mem_append_left _ hroot)
    rw [root_addr, root_units] at hsize
    rw [hnext, hsize] at hfit
    omega
  · have hsize := hi.sizes p (by simp)
    rw [hnext, hsize] at hfit
    exact ⟨us, p, ys, rfl, hnext, hfit⟩

/-- A block was taken and is in use; the rest of the heap is as it should be. -/
def Took (base align nunits : Nat) (used : List Block) (got : List Span) (ap : Nat) (h : Heap) : Prop :=
  ∃ b ring, b.units = nunits ∧ ap = b.addr + headerSize ∧ Inv base align h ring (b :: used) got

/-- The search of `malloc`, without more memory. -/
theorem Inv.search (sbrk : Int → σ → Option (Option Nat × σ)) (s : σ) (halign : align ∣ headerSize) (hi : Inv base align h ring used got) (hpos : 0 < nunits) :
    ((∃ b ∈ ring, nunits ≤ b.units) ∧ ∃ ap h', Took base align nunits used got ap h' ∧ ∀ rounds, ring.length ≤ rounds →
        Umalloc.search sbrk nunits rounds h.freep (h.ptr h.freep) h s = some (ap, h', s)) ∨
      ((∀ b ∈ ring, b.units < nunits) ∧ ∀ rounds,
        Umalloc.search sbrk nunits (rounds + ring.length) h.freep (h.ptr h.freep) h s = grow sbrk nunits rounds h s) := by
  obtain ⟨l, hpath, hperm⟩ := hi.circle.path hi.freep
  have hlen : l.length + 1 = ring.length := by simpa using hperm.length_eq
  have hn : h.freep ∉ l := (List.nodup_cons.mp (hperm.nodup_iff.mpr hi.nodup)).1
  rcases search_path sbrk s nunits hpath hn with ⟨a, ha, hfit, hrun⟩ | ⟨hsmall, hrun⟩
  · obtain ⟨q, hq, rfl⟩ := List.mem_map.mp (hperm.mem_iff.mp ha)
    obtain ⟨us, p, ys, rfl, hnext, hle⟩ := hi.adjacent hq hpos hfit
    obtain ⟨b, ring', hb, hap, hi'⟩ := hi.take halign hpos hle
    rw [hnext] at hrun
    exact .inl ⟨⟨p, by simp, hle⟩, _, _, ⟨b, ring', hb, hap, hi'⟩, fun rounds hr => hrun rounds (by omega)⟩
  · refine .inr ⟨fun b hb => ?_, fun rounds => ?_⟩
    · rw [← hi.sizes b (by simp [hb])]
      exact hsmall _ (hperm.mem_iff.mpr (List.mem_map_of_mem hb))
    · rw [← hlen]
      exact hrun rounds

/-! ### More memory -/

/-- Fresh memory, as a block in use. -/
theorem Inv.grant {a nu : Nat} (hi : Inv base align h ring used got) (hpos : 0 < nu) (habove : base + headerSize ≤ a)
    (haligned : a % align = 0) (hfresh : ∀ r ∈ got, r.1 + r.2 ≤ a) (hbounded : a + headerSize * nu ≤ 2 ^ 36) :
    Inv base align (h.setSize a nu) ring (⟨a, nu⟩ :: used) ((a, headerSize * nu) :: got) := by
  have hold : ∀ x, a ≤ x → hits got x = 0 := by
    intro x hx
    rw [hits_eq_zero_iff]
    intro r hr hholds
    have hle := hfresh r hr
    have hlt := hholds.2
    omega
  have hne : ∀ c ∈ ring ++ used, c.addr ≠ a := by
    intro c hc heq
    by_cases hu : c.units = 0
    · -- the static header
      have hroot : c = root base := by
        rcases List.mem_append.mp hc with hc | hc
        · rcases hi.proper c hc with hroot | hp
          · exact hroot
          · exact absurd hp.units (by omega)
        · exact absurd (hi.proper_used c hc).units (by omega)
      rw [hroot, root_addr] at heq
      rw [headerSize_eq] at habove
      omega
    · have hhit : 0 < hits ((ring ++ used).map Block.span) c.addr := by
        refine hits_pos_iff.mpr ⟨c.span, List.mem_map_of_mem hc, Nat.le_refl _, ?_⟩
        simp only [Block.span, headerSize_eq]
        omega
      rw [hi.all, hold _ (by omega)] at hhit
      omega
  constructor
  · exact hi.null
  · exact hi.first
  · exact hi.proper
  · intro c hc
    rcases List.mem_cons.mp hc with rfl | hc
    · exact ⟨habove, haligned, hpos, hbounded⟩
    · exact hi.proper_used c hc
  · intro c hc
    by_cases hca : c = ⟨a, nu⟩
    · simp [hca]
    · have hc' : c ∈ ring ++ used := by
        simpa [hca] using hc
      simp only [Heap.setSize_size, Function.update_of_ne (hne c hc')]
      exact hi.sizes c hc'
  · exact hi.circle
  · exact hi.freep
  · exact hi.apart
  · intro x
    have hall := hi.all x
    simp only [List.map_append, List.map_cons, hits_append, hits_cons, Block.span] at hall ⊢
    omega
  · intro x
    have hone := hi.once x
    rw [hits_cons]
    by_cases hx : a ≤ x
    · rw [hold x hx]
      split <;> omega
    · rw [if_neg fun hholds => hx hholds.1]
      exact hone

/-- The units that `morecore` asks for. -/
def asked (nunits : Nat) : Nat := if nunits < 4096 then 4096 else nunits

theorem le_asked (nunits : Nat) : nunits ≤ asked nunits ∧ 0 < asked nunits := by
  unfold asked
  split <;> omega

/-- For few units that is an amount an `int` holds. -/
theorem asked_amount (hfew : nunits < 2 ^ 27) :
    0 < headerSize * asked nunits ∧ headerSize * asked nunits < 2 ^ 31 ∧
      int32 (asked nunits * headerSize) = (headerSize * asked nunits : Nat) := by
  have hamount : 0 < headerSize * asked nunits ∧ headerSize * asked nunits < 2 ^ 31 := by
    unfold asked
    simp only [headerSize_eq]
    split <;> omega
  refine ⟨hamount.1, hamount.2, ?_⟩
  rw [Nat.mul_comm, int32_of_lt hamount.2]

/-- `morecore`, by what the system call answers. -/
theorem morecore_none {rounds : Nat} {s' : σ} (hcall : sbrk (int32 (asked nunits * headerSize)) s = some (none, s')) :
    morecore sbrk rounds h s nunits = some (0, h, s') := by
  have hcall' : sbrk (int32 ((if nunits < 4096 then 4096 else nunits) * headerSize)) s = some (none, s') := hcall
  simp only [morecore, hcall']
  rfl

theorem morecore_some {rounds a : Nat} {s' : σ} (hcall : sbrk (int32 (asked nunits * headerSize)) s = some (some a, s'))
    (hfree : free rounds (h.setSize a (asked nunits)) (a + headerSize) = some h') :
    morecore sbrk rounds h s nunits = some (h'.freep, h', s') := by
  have hcall' : sbrk (int32 ((if nunits < 4096 then 4096 else nunits) * headerSize)) s = some (some a, s') := hcall
  have hfree' : free rounds (h.setSize a (if nunits < 4096 then 4096 else nunits)) (a + headerSize) = some h' := hfree
  simp only [morecore, hcall']
  show (free rounds _ _ >>= _) = _
  rw [hfree']
  rfl

/-- It has made one system call. -/
theorem morecore_calls {rounds q : Nat} {s' : σ} (hmore : morecore sbrk rounds h s nunits = some (q, h', s')) :
    ∃ r, sbrk (int32 (asked nunits * headerSize)) s = some (r, s') := by
  obtain ⟨⟨r, s₁⟩, hcall, hrest⟩ := Option.bind_eq_some_iff.mp hmore
  refine ⟨r, ?_⟩
  have hs : s₁ = s' := by
    cases r with
    | none =>
      cases hrest
      rfl
    | some a =>
      obtain ⟨h₁, -, heq⟩ := Option.bind_eq_some_iff.mp hrest
      cases heq
      rfl
  rw [← hs]
  exact hcall

/-- What the system call keeps, the search keeps. -/
theorem search_keeps {P : σ → Prop} (hP : ∀ n s r s', sbrk n s = some (r, s') → P s → P s') {rounds prevp p ap : Nat} {s' : σ}
    (hs : P s) (hrun : search sbrk nunits rounds prevp p h s = some (ap, h', s')) : P s' := by
  induction rounds generalizing prevp p h s with
  | zero => cases hrun
  | succ rounds ih =>
    rw [search_succ] at hrun
    by_cases hfit : h.size p ≥ nunits
    · rw [if_pos hfit] at hrun
      cases hrun
      exact hs
    · rw [if_neg hfit] at hrun
      by_cases hp : p = h.freep
      · rw [if_pos hp] at hrun
        unfold grow at hrun
        cases hmore : morecore sbrk rounds h s nunits with
        | none =>
          rw [hmore] at hrun
          cases hrun
        | some out =>
          obtain ⟨q, h₁, s₁⟩ := out
          obtain ⟨r, hcall⟩ := morecore_calls hmore
          have hs₁ : P s₁ := hP _ _ _ _ hcall hs
          rw [hmore] at hrun
          have hrun : (if q = 0 then some (0, h₁, s₁) else search sbrk nunits rounds q (h₁.ptr q) h₁ s₁) = some (ap, h', s') := hrun
          by_cases hq : q = 0
          · rw [if_pos hq] at hrun
            cases hrun
            exact hs₁
          · rw [if_neg hq] at hrun
            exact ih hs₁ hrun
      · rw [if_neg hp] at hrun
        exact ih hs hrun

/-- The loop of `malloc` where it has asked for more memory: it returns, with a block or with nothing changed. -/
theorem Inv.grow {s' : σ} {r : Option Nat} {got' : List Span} (halign : align ∣ headerSize) (hi : Inv base align h ring used got) (hpos : 0 < nunits)
    (hcall : sbrk (int32 (asked nunits * headerSize)) s = some (r, s'))
    (hanswer : Answer base align got (headerSize * asked nunits) r got') :
    (r = none ∧ got' = got ∧ ∀ rounds, Umalloc.grow sbrk nunits rounds h s = some (0, h, s')) ∨
      ∃ ap h' n, Took base align nunits used got' ap h' ∧ ∀ rounds, n ≤ rounds →
        Umalloc.grow sbrk nunits rounds h s = some (ap, h', s') := by
  obtain ⟨hle, hasked⟩ := le_asked nunits
  cases hanswer with
  | fails =>
    refine .inl ⟨rfl, rfl, fun rounds => ?_⟩
    unfold Umalloc.grow
    rw [morecore_none hcall]
    rfl
  | grows a habove haligned hfresh hbounded =>
    obtain ⟨h', ring', hfree, hi', z, hz, hzle⟩ :=
      (hi.grant hasked habove haligned hfresh hbounded).free
    right
    -- the second round finds it
    rcases hi'.search sbrk s' halign hpos with ⟨-, ap, h'', htook, hrun⟩ | ⟨hsmall, -⟩
    · refine ⟨ap, h'', ring.length + ring'.length, htook, fun rounds hr => ?_⟩
      unfold Umalloc.grow
      rw [morecore_some hcall (hfree rounds (by omega))]
      show (if h'.freep = 0 then _ else _) = _
      rw [if_neg hi'.freep_ne]
      exact hrun rounds (by omega)
    · have hlt := hsmall z hz
      have hzle : asked nunits ≤ z.units := hzle
      omega

/-- Where the loop asks for memory, what it returns then is what `malloc` returns. -/
theorem Returns.of_grow {out : Nat × Heap × σ} {k : Nat}
    (hrun : ∀ rounds, search sbrk nunits (rounds + ring.length) h.freep (h.ptr h.freep) h s = grow sbrk nunits rounds h s)
    (hgrow : ∀ rounds, k ≤ rounds → grow sbrk nunits rounds h s = some out) :
    Returns (fun rounds => search sbrk nunits rounds h.freep (h.ptr h.freep) h s) out := by
  refine ⟨k + ring.length, fun rounds hr => ?_⟩
  obtain ⟨d, rfl⟩ := Nat.exists_eq_add_of_le hr
  have hsum : k + ring.length + d = k + d + ring.length := by omega
  show search sbrk nunits (k + ring.length + d) _ _ _ _ = _
  rw [hsum, hrun]
  exact hgrow _ (Nat.le_add_right k d)

end Farron.Umalloc
