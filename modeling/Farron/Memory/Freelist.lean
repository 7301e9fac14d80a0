import Farron.Chains.Linked
import Farron.Kernel.Guarded
import Farron.Memory.Pages

/-! The page allocator as it lies in memory, from `kernel/kalloc.c` (`pages_kept`).

Pages are known by their addresses, and the link of a free page is the word at its address: all of
physical memory is in `mem`, where every thread writes. `out` is history, read by no function: the pages that
`kalloc` has counted off and `kfree` has not yet counted back. `Memory.Ram` keeps the list without
its links (`kalloc_pop`, `kfree_push`). -/
namespace Farron.Memory
open Resumption

structure Kmem where
  freelist : Nat
  npage : Nat
  mem : Nat → Byte
  out : List Nat

namespace Kmem

/-- Stores of single bytes. -/
def store (a : Nat) (c : Byte) (d : Kmem) : Kmem := { d with mem := Function.update d.mem a c }

section Code
variable {ι : Type} [DecidableEq ι]

abbrev Code (ι α : Type) := Kernel Unit ι Empty Kmem α

/-- `memset`, byte by byte. -/
def memset (dst : Nat) (c : Byte) : Nat → Code ι Unit
  | 0 => .ret ()
  | n + 1 => do
    update () (store dst c)
    memset (dst + 1) c n

def kfree (kernelEnd : Nat) (i : ι) (pa : Nat) : Code ι Unit :=
  if pa % pgsize ≠ 0 ∨ pa < kernelEnd ∨ phystop ≤ pa then .stop (.panic "kfree")
  else do
    memset pa 1 pgsize
    acquire i
    update () fun d => { d with mem := putWord64 pa d.freelist d.mem }
    update () fun d => { d with freelist := pa }
    update () fun d => { d with npage := u64 (d.npage + 1), out := d.out.erase pa }
    release i

/-- `kalloc`: what it returns, and which pages were out when it looked. -/
def kalloc (i : ι) : Code ι (Nat × List Nat) := do
  acquire i
  let d ← fetch
  if d.freelist ≠ 0 then
    update () fun e => { e with freelist := word64 e.mem d.freelist }
    update () fun e => { e with npage := u64 (e.npage + (2 ^ 64 - 1)), out := d.freelist :: e.out }
    release i
    memset d.freelist 5 pgsize
    return (d.freelist, d.out)
  else
    release i
    return (0, d.out)

/-- The loop of `freerange`; `n` is as many pages as there can be. -/
def freeFrom (kernelEnd : Nat) (i : ι) (paEnd : Nat) : Nat → Nat → Code ι Unit
  | 0, _ => .stop .spin
  | n + 1, p =>
    if p + pgsize ≤ paEnd then do
      kfree kernelEnd i p
      freeFrom kernelEnd i paEnd n (p + pgsize)
    else .ret ()

def freerange (kernelEnd : Nat) (i : ι) (paStart paEnd : Nat) : Code ι Unit :=
  freeFrom kernelEnd i paEnd (paEnd / pgsize + 1) (pgroundup paStart)

/-- `initlock`. -/
def initlock : Code ι Unit := .change () fun w => { w with lk := none }

def kinit (kernelEnd : Nat) (i : ι) : Code ι Unit := do
  initlock
  update () fun d => { d with freelist := 0 }
  update () fun d => { d with npage := 0 }
  freerange kernelEnd i kernelEnd phystop

end Code

/-- `npage << PGSHIFT`. -/
def freememAmount (d : Kmem) : Nat := u64 (d.npage <<< 12)

end Kmem

/-! ### Threads -/

/-- A thread: the pages it may write and free, and what its last `kalloc` returned. -/
structure PageUser where
  pages : List Nat
  got : Option (Nat × List Nat)

inductive PageCall
  | kalloc
  | kfree (pa : Nat)
  | store (a : Nat) (c : Byte)

section Client
variable {ι : Type} [DecidableEq ι] (kernelEnd : Nat)

def PageCall.body (i : ι) (u : PageUser) : PageCall → Kmem.Code ι PageUser
  | .kalloc => do
    let got ← Kmem.kalloc i
    return ⟨if got.1 ≠ 0 then got.1 :: u.pages else u.pages, some got⟩
  | .kfree pa => do
    Kmem.kfree kernelEnd i pa
    return ⟨u.pages.erase pa, none⟩
  | .store a c => do
    update () (Kmem.store a c)
    return u

/-- Only pages that one has may be freed, or written. Pages may be handed to another thread, one that only
writes for instance. -/
def pageClient : Client Unit Stop (World ι Empty Kmem) ι PageUser PageCall where
  enabled u
    | .kalloc => True
    | .kfree pa => pa ∈ u.pages
    | .store a _ => pgrounddown a ∈ u.pages
  body i u c := c.body kernelEnd i u
  pass u v u' v' := (u'.pages ++ v'.pages).Perm (u.pages ++ v.pages) ∧ u'.got = u.got ∧ v'.got = v.got

end Client

/-! ### The list -/

/-- A whole page between the kernel and the end of memory. -/
def Whole (kernelEnd p : Nat) : Prop := p % pgsize = 0 ∧ kernelEnd ≤ p ∧ p + pgsize ≤ phystop

/-- The list that starts at `head`. -/
structure FreeList (mem : Nat → Byte) (head : Nat) (l : List Nat) : Prop where
  head : head = l.headD 0
  links : Chains.Linked (fun r => word64 mem r) (· = 0) l

/-- The same memory, but for a page. -/
def SameOff (p : Nat) (mem mem' : Nat → Byte) : Prop := ∀ a, pgrounddown a ≠ p → mem' a = mem a

section Lists
variable {kernelEnd p r head : Nat} {mem mem' : Nat → Byte} {l : List Nat}

theorem Whole.pos (h : Whole kernelEnd p) (hend : 0 < kernelEnd) : p ≠ 0 := by
  have := h.2.1
  omega

theorem pgrounddown_of {a : Nat} (hp : p % pgsize = 0) (h : p ≤ a) (h' : a < p + pgsize) : pgrounddown a = p := by
  unfold pgrounddown
  rw [pgsize_eq] at *
  omega

theorem SameOff.word (h : SameOff p mem mem') (hr : r % pgsize = 0) (hne : r ≠ p) : word64 mem' r = word64 mem r := by
  have hbyte : ∀ k, k < 8 → mem' (r + k) = mem (r + k) := fun k hk => by
    apply h
    rw [pgrounddown_of hr (Nat.le_add_right r k) (by rw [pgsize_eq]; omega)]
    exact hne
  have hlo : word32 mem' r = word32 mem r := word32_congr fun k hk => hbyte k (by omega)
  have hhi : word32 mem' (r + 4) = word32 mem (r + 4) := by
    refine word32_congr fun k hk => ?_
    rw [Nat.add_assoc]
    exact hbyte (4 + k) (by omega)
  rw [word64, word64, hlo, hhi]

theorem sameOff_store {a : Nat} (c : Byte) (ha : pgrounddown a = p) : SameOff p mem (Function.update mem a c) := by
  intro b hb
  apply Function.update_of_ne
  intro hab
  rw [hab] at hb
  exact hb ha

theorem sameOff_putWord64 (v : Nat) (hp : p % pgsize = 0) : SameOff p mem (putWord64 p v mem) := by
  intro b hb
  have hout : b < p ∨ p + 8 ≤ b := by
    by_contra hin
    exact hb (pgrounddown_of hp (by omega) (by rw [pgsize_eq]; omega))
  unfold putWord64 putWord32
  rw [overwrite_out _ _ (by omega), overwrite_out _ _ (by omega)]

namespace FreeList

theorem nil : FreeList mem 0 [] := ⟨rfl, .nil⟩

theorem cons (h : FreeList mem head l) (hr : word64 mem r = head) : FreeList mem r (r :: l) := by
  refine ⟨rfl, h.links.cons (fun d hd => ?_) fun hnil => ?_⟩
  · rw [hr, h.head, List.headD_eq_head?_getD, hd]
    rfl
  · rw [hr, h.head, hnil]
    rfl

theorem uncons (h : FreeList mem head (r :: l)) : FreeList mem (word64 mem r) l := by
  refine ⟨?_, h.links.tail⟩
  cases l with
  | nil => exact h.links.last 0 r rfl rfl
  | cons d l => exact h.links.head

theorem off (h : FreeList mem head l) (hl : ∀ q ∈ l, q % pgsize = 0) (hp : p ∉ l) (hm : SameOff p mem mem') :
    FreeList mem' head l :=
  ⟨h.head, h.links.congr fun c hc => hm.word (hl c hc) fun he => hp (he ▸ hc)⟩

/-- The list is empty if and only if it starts with 0. -/
theorem head_eq_zero (h : FreeList mem head l) (hl : ∀ q ∈ l, q ≠ 0) : head = 0 ↔ l = [] := by
  rw [h.head]
  cases l with
  | nil => exact ⟨fun _ => rfl, fun _ => rfl⟩
  | cons r l => exact ⟨fun h0 => absurd h0 (hl r (List.mem_cons_self ..)), fun h => by cases h⟩

theorem head_lt (h : FreeList mem head l) (hl : ∀ q ∈ l, Whole kernelEnd q) : head < 2 ^ 64 := by
  rw [h.head]
  cases l with
  | nil => exact Nat.two_pow_pos 64
  | cons r l =>
    have htop := (hl r (List.mem_cons_self ..)).2.2
    unfold phystop at htop
    show r < 2 ^ 64
    omega

theorem exists_cons (h : FreeList mem head l) (h0 : head ≠ 0) : ∃ l', l = head :: l' := by
  cases l with
  | nil => exact absurd h.head h0
  | cons r l' =>
    have hr : head = r := h.head
    rw [hr]
    exact ⟨l', rfl⟩

end FreeList
end Lists

/-- There are not many whole pages. -/
theorem length_whole_le {kernelEnd : Nat} {l : List Nat} (hnd : l.Nodup) (hl : ∀ p ∈ l, Whole kernelEnd p) : l.length ≤ 0x80600 := by
  have hsub : l.toFinset ⊆ (Finset.range 0x80600).image (· * pgsize) := by
    intro p hp
    obtain ⟨hal, -, htop⟩ := hl p (List.mem_toFinset.mp hp)
    rw [Finset.mem_image]
    refine ⟨p / pgsize, Finset.mem_range.mpr ?_, ?_⟩
    · unfold phystop at htop
      rw [pgsize_eq] at *
      omega
    · show p / pgsize * pgsize = p
      rw [pgsize_eq] at *
      omega
  rw [← List.toFinset_card_of_nodup hnd]
  exact (Finset.card_le_card hsub).trans (Finset.card_image_le.trans (Finset.card_range _).le)

/-- What the free list must be, and `npage`. -/
structure Stock (kernelEnd : Nat) (d : Kmem) (l : List Nat) : Prop where
  nodup : l.Nodup
  pages : ∀ p, p ∈ l ↔ Whole kernelEnd p ∧ p ∉ d.out
  npage : d.npage = l.length

namespace Stock
variable {kernelEnd : Nat} {d : Kmem} {l : List Nat}

theorem whole (h : Stock kernelEnd d l) {p : Nat} (hp : p ∈ l) : Whole kernelEnd p := ((h.pages p).mp hp).1

theorem aligned (h : Stock kernelEnd d l) : ∀ p ∈ l, p % pgsize = 0 := fun _ hp => (h.whole hp).1

theorem nonzero (h : Stock kernelEnd d l) (hend : 0 < kernelEnd) : ∀ p ∈ l, p ≠ 0 := fun _ hp => (h.whole hp).pos hend

end Stock

/-! ### `kinit` -/

namespace Kmem
section Alone
variable {ι : Type} [DecidableEq ι] {kernelEnd : Nat}

omit [DecidableEq ι] in
theorem memset_run (dst : Nat) (c : Byte) (n : Nat) (w : World ι Empty Kmem) :
    (memset dst c n : Code ι Unit).run w = .done () { w with data := { w.data with mem := overwrite dst n (fun _ => c) w.data.mem } } := by
  induction n generalizing dst w with
  | zero =>
    have hnone : overwrite dst 0 (fun _ => c) w.data.mem = w.data.mem := by
      funext a
      exact overwrite_out _ _ (by omega)
    rw [hnone]
    rfl
  | succ n ih =>
    have hstep : overwrite (dst + 1) n (fun _ => c) (Function.update w.data.mem dst c) =
        overwrite dst (n + 1) (fun _ => c) w.data.mem := by
      funext a
      by_cases ha : a = dst
      · rw [ha, overwrite_out _ _ (by omega), Function.update_self, overwrite_in _ _ (by omega) (by omega)]
      · by_cases hin : dst < a ∧ a < dst + (n + 1)
        · rw [overwrite_in _ _ (by omega) (by omega), overwrite_in _ _ (by omega) (by omega)]
        · rw [overwrite_out _ _ (by omega), Function.update_of_ne ha, overwrite_out _ _ (by omega)]
    have hrun := ih (dst + 1) { w with data := store dst c w.data }
    show (memset (dst + 1) c n : Code ι Unit).run { w with data := store dst c w.data } = _
    rw [hrun, ← hstep]
    rfl

theorem sameOff_overwrite {p : Nat} (c : Byte) (mem : Nat → Byte) (hp : p % pgsize = 0) :
    SameOff p mem (overwrite p pgsize (fun _ => c) mem) := by
  intro a ha
  apply overwrite_out
  by_contra hin
  exact ha (pgrounddown_of hp (by omega) (by omega))

/-- What `kfree` does alone. -/
theorem kfree_run {i : ι} {pa : Nat} (hpa : Whole kernelEnd pa) {w : World ι Empty Kmem} (hlk : w.lk = none) :
    (kfree kernelEnd i pa).run w = .done () { w with lk := none, data := ⟨pa, u64 (w.data.npage + 1),
      putWord64 pa w.data.freelist (overwrite pa pgsize (fun _ => 1) w.data.mem), w.data.out.erase pa⟩ } := by
  obtain ⟨hal, hlow, htop⟩ := hpa
  have hok : ¬ (pa % pgsize ≠ 0 ∨ pa < kernelEnd ∨ phystop ≤ pa) := by
    rw [pgsize_eq] at *
    omega
  unfold kfree
  rw [if_neg hok, Prog.run_bind_done (memset_run pa 1 pgsize w)]
  simp [acquire, release, update, Prog.run_act, Prog.change, hlk]

/-- What `kalloc` does alone. -/
theorem kalloc_run {i : ι} {w : World ι Empty Kmem} (hlk : w.lk = none) (hr : w.data.freelist ≠ 0) :
    (kalloc i).run w = .done (w.data.freelist, w.data.out) { w with lk := none, data := ⟨word64 w.data.mem w.data.freelist,
      u64 (w.data.npage + (2 ^ 64 - 1)), overwrite w.data.freelist pgsize (fun _ => 5) w.data.mem,
      w.data.freelist :: w.data.out⟩ } := by
  unfold kalloc
  simp only [acquire, release, update, fetch, Prog.run_act, Prog.change, hlk, Prog.act_bind, if_pos, Prog.ret_bind, reduceCtorEq,
    if_false, ne_eq, hr, not_false_eq_true]
  exact Prog.run_bind_done (memset_run ..) _

/-- The loop frees the pages that are left. -/
theorem freeFrom_run {i : ι} (n : Nat) (hn : n ≠ 0) {p : Nat} (hp : p % pgsize = 0) (hlow : kernelEnd ≤ p)
    (hrounds : phystop < p + n * pgsize) {w : World ι Empty Kmem} (hlk : w.lk = none) (hout : w.data.out = []) {l : List Nat}
    (hlist : FreeList w.data.mem w.data.freelist l) (hnd : l.Nodup) (hl : ∀ q, q ∈ l ↔ Whole kernelEnd q ∧ q < p)
    (hnpage : w.data.npage = l.length) :
    ∃ w' l', (freeFrom kernelEnd i phystop n p).run w = .done () w' ∧ w'.lk = none ∧ w'.data.out = [] ∧
      FreeList w'.data.mem w'.data.freelist l' ∧ Stock kernelEnd w'.data l' := by
  induction n generalizing p w l with
  | zero => exact absurd rfl hn
  | succ n ih =>
    unfold freeFrom
    by_cases hroom : p + pgsize ≤ phystop
    · have hpa : Whole kernelEnd p := ⟨hp, hlow, hroom⟩
      have hpl : p ∉ l := fun hmem => Nat.lt_irrefl p ((hl p).mp hmem).2
      have hal : ∀ q ∈ l, q % pgsize = 0 := fun q hq => ((hl q).mp hq).1.1
      have hhead : w.data.freelist < 2 ^ 64 := hlist.head_lt fun q hq => ((hl q).mp hq).1
      have hfill := sameOff_overwrite 1 w.data.mem hp
      have hmul : (n + 1) * pgsize = n * pgsize + pgsize := Nat.succ_mul ..
      have hfew := length_whole_le hnd fun q hq => ((hl q).mp hq).1
      rw [if_pos hroom, Prog.run_bind_done (kfree_run hpa hlk)]
      refine ih (l := p :: l) ?_ ?_ (by omega) (by omega) rfl ?_ ?_ (List.nodup_cons.mpr ⟨hpl, hnd⟩) (fun q => ?_) ?_
      · intro h0
        rw [h0] at hrounds
        omega
      · rw [Nat.add_mod_right]
        exact hp
      · show w.data.out.erase p = []
        rw [hout]
        rfl
      · refine FreeList.cons ?_ (word64_putWord64 _ _ hhead)
        exact (hlist.off hal hpl hfill).off hal hpl (sameOff_putWord64 _ hp)
      · rw [List.mem_cons, hl]
        constructor
        · rintro (rfl | ⟨hq, hlt⟩)
          · exact ⟨hpa, by rw [pgsize_eq]; omega⟩
          · exact ⟨hq, by omega⟩
        · rintro ⟨hq, hlt⟩
          have hqal := hq.1
          rw [pgsize_eq] at *
          by_cases hqp : q = p
          · exact .inl hqp
          · exact .inr ⟨hq, by omega⟩
      · show u64 (w.data.npage + 1) = l.length + 1
        rw [hnpage]
        exact u64_of_lt (by omega)
    · rw [if_neg hroom]
      refine ⟨w, l, rfl, hlk, hout, hlist, hnd, fun q => ?_, hnpage⟩
      rw [hl, hout]
      refine ⟨fun h => ⟨h.1, List.not_mem_nil⟩, fun h => ⟨h.1, ?_⟩⟩
      have htop := h.1.2.2
      omega

/-- **`kinit`** puts every whole page on the list. -/
theorem kinit_run (hend : kernelEnd < 2 ^ 63) (i : ι) {w : World ι Empty Kmem} (hout : w.data.out = []) :
    ∃ w' l, (kinit kernelEnd i).run w = .done () w' ∧ w'.lk = none ∧ w'.data.out = [] ∧
      FreeList w'.data.mem w'.data.freelist l ∧ Stock kernelEnd w'.data l := by
  have hup := pgroundup_of_lt hend
  have hdiv := Nat.div_add_mod' phystop pgsize
  have hmod := Nat.mod_lt phystop (show 0 < pgsize by decide)
  have hmul : (phystop / pgsize + 1) * pgsize = phystop / pgsize * pgsize + pgsize := Nat.succ_mul ..
  have hnone : ∀ q, q ∈ ([] : List Nat) ↔ Whole kernelEnd q ∧ q < pgroundup kernelEnd := by
    refine fun q => ⟨fun h => (by cases h), fun h => ?_⟩
    obtain ⟨⟨hal, hlow, -⟩, hlt⟩ := h
    rw [pgsize_eq] at hal
    rw [hup] at hlt
    omega
  have hloop := freeFrom_run (i := i) (phystop / pgsize + 1) (Nat.succ_ne_zero _) (p := pgroundup kernelEnd)
    (by rw [hup]; exact Nat.mul_mod_left _ _) (by omega) (by omega)
    (w := { w with lk := none, data := { w.data with freelist := 0, npage := 0 } }) rfl hout .nil List.nodup_nil hnone rfl
  obtain ⟨w', l, hrun, hkept⟩ := hloop
  refine ⟨w', l, ?_, hkept⟩
  unfold kinit freerange
  simp only [initlock, update, Prog.change, Prog.act_bind, Prog.ret_bind, Prog.run_act_some]
  exact hrun

end Alone
end Kmem

/-! ### The list without its links -/

/-- `m` has the free pages in the order of the list, and what is in the others. -/
structure Stands (d : Kmem) (m : Ram) : Prop where
  list : FreeList d.mem d.freelist (m.free.map (· * pgsize))
  bytes : ∀ p, p ∉ m.free → ∀ o, o < pgsize → m.byte p o = d.mem (p * pgsize + o)

namespace Stands
variable {ι : Type} [DecidableEq ι] {kernelEnd : Nat} {i : ι} {w : World ι Empty Kmem} {m : Ram}

theorem page_aligned (p : Page) : p * pgsize % pgsize = 0 := Nat.mul_mod_left _ _

theorem map_aligned (l : List Page) : ∀ q ∈ l.map (· * pgsize), q % pgsize = 0 := by
  intro q hq
  obtain ⟨p, -, rfl⟩ := List.mem_map.mp hq
  exact page_aligned p

theorem mem_map {l : List Page} {p : Page} : p * pgsize ∈ l.map (· * pgsize) ↔ p ∈ l := by
  refine ⟨fun h => ?_, fun h => List.mem_map.mpr ⟨p, h, rfl⟩⟩
  obtain ⟨q, hq, he⟩ := List.mem_map.mp h
  have hpq : q = p := Nat.eq_of_mul_eq_mul_right (by decide) he
  rw [← hpq]
  exact hq

/-- Bytes of another page. -/
theorem sameOff_byte {p q : Page} {mem mem' : Nat → Byte} (h : SameOff (p * pgsize) mem mem') (hne : q ≠ p) {o : Nat}
    (ho : o < pgsize) : mem' (q * pgsize + o) = mem (q * pgsize + o) := by
  apply h
  rw [pgrounddown_of (page_aligned q) (Nat.le_add_right _ o) (by omega)]
  exact fun he => hne (Nat.eq_of_mul_eq_mul_right (by decide) he)

/-- `kalloc` is `Ram.pop`. -/
theorem kalloc_pop (h : Stands w.data m) (hlk : w.lk = none) (hnd : m.free.Nodup) (hpos : ∀ p ∈ m.free, p ≠ 0) (use : Use) :
    ∃ w', (Kmem.kalloc i).run w = .done (m.free.headD 0 * pgsize, w.data.out) w' ∧ w'.lk = none ∧ Stands w'.data (m.pop use) := by
  cases hfree : m.free with
  | nil =>
    have hlist := h.list
    rw [hfree] at hlist
    have h0 : w.data.freelist = 0 := hlist.head
    refine ⟨{ w with lk := none }, ?_, rfl, ?_⟩
    · unfold Kmem.kalloc
      simp [acquire, release, fetch, Prog.run_act, hlk, h0]
    · unfold Ram.pop
      rw [hfree]
      exact ⟨by rw [hfree]; exact hlist, h.bytes⟩
  | cons r rest =>
    have hlist := h.list
    rw [hfree] at hlist hnd
    obtain ⟨hr, hnd⟩ := List.nodup_cons.mp hnd
    have hhead : w.data.freelist = r * pgsize := hlist.head
    have h0 : w.data.freelist ≠ 0 := by
      rw [hhead]
      exact Nat.mul_ne_zero (hpos r (by rw [hfree]; exact List.mem_cons_self ..)) (by decide)
    have hfill := Kmem.sameOff_overwrite 5 w.data.mem (page_aligned r)
    have hpop : m.pop use = ⟨rest, Function.update m.byte r fun _ => 5, m.kern, Function.update m.use r use⟩ := by
      unfold Ram.pop
      rw [hfree]
    refine ⟨_, by rw [Kmem.kalloc_run hlk h0, hhead]; rfl, rfl, ?_⟩
    rw [hpop]
    refine ⟨?_, fun p hp o ho => ?_⟩
    · exact hlist.uncons.off (map_aligned rest) (fun hmem => hr (mem_map.mp hmem)) hfill
    · by_cases hpr : p = r
      · rw [hpr]
        dsimp only
        rw [Function.update_self, overwrite_in _ _ (by omega) (by omega)]
      · dsimp only
        rw [Function.update_of_ne hpr, h.bytes p ?_ o ho]
        · exact (sameOff_byte hfill hpr ho).symm
        · rw [hfree]
          exact fun hmem => (List.mem_cons.mp hmem).elim hpr hp

/-- `kfree` is `Ram.push`. -/
theorem kfree_push {pa : Page} (h : Stands w.data m) (hlk : w.lk = none) (hpa : Whole kernelEnd (pa * pgsize)) (hno : pa ∉ m.free)
    (hhead : w.data.freelist < 2 ^ 64) :
    ∃ w', (Kmem.kfree kernelEnd i (pa * pgsize)).run w = .done () w' ∧ w'.lk = none ∧ Stands w'.data (m.push pa) := by
  have hfill := Kmem.sameOff_overwrite 1 w.data.mem (page_aligned pa)
  have hlink : SameOff (pa * pgsize) (overwrite (pa * pgsize) pgsize (fun _ => 1) w.data.mem) _ :=
    sameOff_putWord64 w.data.freelist (page_aligned pa)
  have hout : pa * pgsize ∉ m.free.map (· * pgsize) := fun hmem => hno (mem_map.mp hmem)
  refine ⟨_, Kmem.kfree_run hpa hlk, rfl, ?_, fun p hp o ho => ?_⟩
  · exact ((h.list.off (map_aligned _) hout hfill).off (map_aligned _) hout hlink).cons (word64_putWord64 _ _ hhead)
  · obtain ⟨hpp, hpf⟩ := not_or.mp (fun hmem => hp (List.mem_cons.mpr hmem))
    rw [Ram.push_byte_ne m hpp, h.bytes p hpf o ho]
    exact ((sameOff_byte hlink hpp ho).trans (sameOff_byte hfill hpp ho)).symm

end Stands

end Farron.Memory
