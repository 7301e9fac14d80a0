import Farron.Memory.Copies
import Farron.Memory.Forks

/-! Two ways to copy between the kernel and the user.

What a process has at its addresses below its size is an array of bytes (`userByte`), whichever
table it is looked at through. `copyin2`, `copyout2` and `copyinstr2` go through the kernel page
table without a walk, `copyin`, `copyout` and `copyinstr` walk the user's. Where the one way
succeeds so does the other, and leaves the same memory, unless a byte lies in the page that `exec`
has taken from the user below the stack: there only the kernel may go. -/
namespace Farron.Memory
open Resumption Radix

variable {board : Board} {m₀ m m' m'' : Ram} {us : List Pte} {u k : Page} {va len n : Nat} {dst : Dst} {src : Nat → Byte}

/-! ### Bytes at user addresses -/

/-- The byte that a process has at an address. -/
def userByte (m : Ram) (us : List Pte) (va : Nat) : Byte := us[va / pgsize]?.elim 0 fun e => m.byte e.page (va % pgsize)

/-- The user may read and write there. -/
def Usable (us : List Pte) (va : Nat) : Prop := ∃ e, us[va / pgsize]? = some e ∧ isUser e.flags = true

/-- A user page table and a kernel page table map the pages `us`, none of which is a page of theirs. -/
structure Mapping (m : Ram) (u k : Page) (us : List Pte) : Prop where
  user : ∃ f, Table Finset.univ f m u ∧ ∀ v, v < 2 ^ 19 → f v = us[v]?
  kern : ∃ g, Table procIdx g m k ∧ ∀ v, v < 2 ^ 19 → g v = us[v]?.map Pte.kern
  few : us.length < 2 ^ 19
  flags : ∀ e ∈ us, UserFlags e
  nodup : (us.map Pte.page).Nodup
  apart : ∀ e ∈ us, e.page ∉ pagesOf m Finset.univ u ∧ e.page ∉ pagesOf m procIdx k

/-- A buffer of the kernel lies neither in a page of the two page tables nor in a user page. -/
def Dst.Apart (m : Ram) (u k : Page) (us : List Pte) : Dst → Prop
  | .kern _ => True
  | .page p _ => p ∉ pagesOf m Finset.univ u ∧ p ∉ pagesOf m procIdx k ∧ ∀ e ∈ us, e.page ≠ p

theorem Table.bytes {S : Finset (Fin 512)} {f : Nat → Option Pte} {root : Page} (h : Table S f m root)
    (hb : ∀ p ∈ pagesOf m S root, m'.byte p = m.byte p) : Table S f m' root ∧ pagesOf m' S root = pagesOf m S root := by
  have hs : Same (tabs (pagesOf m S root)) m { m' with kern := m.kern } :=
    ⟨fun x hx => hb _ (mem_tabs.mp hx).1, rfl⟩
  have h' := h.same hs
  have hp := hs.pagesOf
  rw [pagesOf_eq] at hp ⊢
  exact ⟨⟨h'.shape, h'.maps⟩, hp⟩

theorem Mapping.bytes (h : Mapping m u k us) (hu : ∀ p ∈ pagesOf m Finset.univ u, m'.byte p = m.byte p)
    (hk : ∀ p ∈ pagesOf m procIdx k, m'.byte p = m.byte p) :
    Mapping m' u k us ∧ pagesOf m' Finset.univ u = pagesOf m Finset.univ u ∧ pagesOf m' procIdx k = pagesOf m procIdx k := by
  obtain ⟨f, hf, hfus⟩ := h.user
  obtain ⟨g, hg, hgus⟩ := h.kern
  obtain ⟨hf', hpu⟩ := hf.bytes hu
  obtain ⟨hg', hpk⟩ := hg.bytes hk
  refine ⟨⟨⟨f, hf', hfus⟩, ⟨g, hg', hgus⟩, h.few, h.flags, h.nodup, fun e he => ?_⟩, hpu, hpk⟩
  rw [hpu, hpk]
  exact h.apart e he

/-! ### One page -/

theorem px_pgrounddown (va j : Nat) : px (va / pgsize * pgsize) j = px va j := by
  apply Fin.ext
  show va / pgsize * pgsize / 2 ^ (12 + 9 * j) % 512 = va / 2 ^ (12 + 9 * j) % 512
  have hpow : 2 ^ (12 + 9 * j) = pgsize * 2 ^ (9 * j) := by
    rw [pow_add]
    rfl
  rw [hpow, ← Nat.div_div_eq_div_mul, ← Nat.div_div_eq_div_mul, Nat.mul_div_cancel _ (by decide)]

theorem lt_pages {e : Pte} {v : Nat} (h : Mapping m u k us) (he : us[v]? = some e) : v < 2 ^ 19 := by
  have := (List.getElem?_eq_some_iff.mp he).1
  have := h.few
  omega

/-- The leaf that the hardware finds for the kernel. -/
theorem Mapping.leaf {e : Pte} (h : Mapping m u k us) (he : us[va / pgsize]? = some e) : m.leaf k va = some e.kern := by
  obtain ⟨g, hg, hgus⟩ := h.kern
  have hv := lt_pages h he
  have hva : va < maxva := by
    simp only [pgsize_eq, maxva] at hv ⊢
    omega
  have hmap := hg.maps (va / pgsize) (by omega) (by
    unfold procIdx
    exact Finset.mem_insert_of_mem (usrIdx_of_lt hv))
  rw [hgus _ hv, he] at hmap
  unfold Ram.leaf
  rw [if_pos hva, ← find_path m.heap 2 k fun j _ => px_pgrounddown va j]
  exact hmap

theorem UserFlags.kern {e : Pte} (h : UserFlags e) :
    e.kern.flags.testBit 1 = true ∧ e.kern.flags.testBit 2 = true ∧ isUser e.kern.flags = false := by
  show (noU e.flags).testBit 1 = true ∧ (noU e.flags).testBit 2 = true ∧ isUser (noU e.flags) = false
  rcases h with h | h <;> rw [h] <;> decide

theorem Mapping.load {e : Pte} (h : Mapping m u k us) (he : us[va / pgsize]? = some e) :
    m.load k va = some (userByte m us va) := by
  obtain ⟨hr, -, hu⟩ := (h.flags e (List.mem_of_getElem? he)).kern
  unfold Ram.load userByte
  rw [h.leaf he, he]
  show (if e.kern.flags.testBit 1 ∧ isUser e.kern.flags = false then _ else _) = _
  rw [if_pos ⟨hr, hu⟩]
  rfl

theorem Mapping.store {e : Pte} (h : Mapping m u k us) (he : us[va / pgsize]? = some e) (b : Byte) :
    m.store k va b = some (m.write e.page (Function.update (m.byte e.page) (va % pgsize) b)) := by
  obtain ⟨-, hw, hu⟩ := (h.flags e (List.mem_of_getElem? he)).kern
  unfold Ram.store
  rw [h.leaf he]
  show (if e.kern.flags.testBit 2 ∧ isUser e.kern.flags = false then _ else _) = _
  rw [if_pos ⟨hw, hu⟩]
  rfl

/-! ### Buffers of the kernel -/

/-- Bytes behind bytes. -/
theorem overwrite_append (o a n : Nat) (f g b : Nat → Byte) :
    overwrite (o + a) n g (overwrite o a f b) = overwrite o (a + n) (fun i => if i < a then f i else g (i - a)) b := by
  funext x
  by_cases hlow : x < o
  · rw [overwrite_out _ _ (.inl (by omega)), overwrite_out _ _ (.inl hlow), overwrite_out _ _ (.inl hlow)]
  · by_cases hfirst : x < o + a
    · rw [overwrite_out _ _ (.inl hfirst), overwrite_in _ _ (by omega) hfirst, overwrite_in _ _ (by omega) (by omega),
        if_pos (by omega)]
    · by_cases hsecond : x < o + a + n
      · rw [overwrite_in _ _ (by omega) hsecond, overwrite_in _ _ (by omega) (by omega), if_neg (by omega)]
        congr 1
        omega
      · rw [overwrite_out _ _ (.inr (by omega)), overwrite_out _ _ (.inr (by omega)), overwrite_out _ _ (.inr (by omega))]

theorem overwrite_congr (o n : Nat) {f g : Nat → Byte} (b : Nat → Byte) (h : ∀ i, i < n → f i = g i) :
    overwrite o n f b = overwrite o n g b := by
  funext x
  unfold overwrite
  split
  next hx => exact h _ (by omega)
  next => rfl

theorem put_put (dst : Dst) (a n : Nat) (f g : Nat → Byte) :
    (m.put dst a f).put (dst.add a) n g = m.put dst (a + n) fun i => if i < a then f i else g (i - a) := by
  cases dst with
  | kern o =>
    simp only [Ram.put, Dst.add]
    rw [overwrite_append]
  | page p o =>
    simp only [Ram.put, Dst.add, Ram.write_byte]
    rw [overwrite_append]
    unfold Ram.write
    rw [Function.update_idem]

theorem put_congr (dst : Dst) (n : Nat) {f g : Nat → Byte} (h : ∀ i, i < n → f i = g i) : m.put dst n f = m.put dst n g := by
  cases dst with
  | kern o =>
    simp only [Ram.put]
    rw [overwrite_congr o n m.kern h]
  | page p o =>
    simp only [Ram.put]
    rw [overwrite_congr o n (m.byte p) h]

theorem put_zero (dst : Dst) (f : Nat → Byte) : m.put dst 0 f = m := by
  have hnone : ∀ (o : Nat) (b : Nat → Byte), overwrite o 0 f b = b := fun o b => funext fun x => overwrite_out _ _ (by omega)
  cases dst with
  | kern o =>
    simp only [Ram.put]
    rw [hnone]
  | page p o =>
    simp only [Ram.put]
    rw [hnone]
    unfold Ram.write
    rw [Function.update_eq_self]

theorem put_byte_ne {p : Page} (h : ∀ o, dst ≠ .page p o) : (m.put dst n src).byte p = m.byte p := by
  cases dst with
  | kern o => rfl
  | page q o => exact m.write_byte_ne _ fun he => h o (by rw [he])

/-- A buffer that lies apart is filled. -/
theorem Mapping.put (h : Mapping m u k us) (hd : dst.Apart m u k us) (n len : Nat) (src : Nat → Byte) :
    Mapping (m.put dst n src) u k us ∧ (dst.add len).Apart (m.put dst n src) u k us ∧
      ∀ va, userByte (m.put dst n src) us va = userByte m us va := by
  have hne : ∀ p, (p ∈ pagesOf m Finset.univ u ∨ p ∈ pagesOf m procIdx k ∨ ∃ e ∈ us, e.page = p) → ∀ o, dst ≠ .page p o := by
    intro p hp o he
    rw [he] at hd
    rcases hp with hp | hp | ⟨e, hus, hp⟩
    · exact hd.1 hp
    · exact hd.2.1 hp
    · exact hd.2.2 e hus hp
  obtain ⟨hmap, hpu, hpk⟩ := h.bytes (fun p hp => (put_byte_ne (hne p (.inl hp)) : (m.put dst n src).byte p = m.byte p))
    fun p hp => put_byte_ne (hne p (.inr (.inl hp)))
  refine ⟨hmap, ?_, fun va => ?_⟩
  · cases dst with
    | kern o => trivial
    | page p o =>
      show p ∉ _ ∧ p ∉ _ ∧ _
      rw [hpu, hpk]
      exact hd
  · unfold userByte
    cases he : us[va / pgsize]? with
    | none => rfl
    | some e => exact congrFun (put_byte_ne (hne e.page (.inr (.inr ⟨e, List.mem_of_getElem? he, rfl⟩)))) _

/-- The first byte of a range was put into a buffer, and then the others are. -/
theorem Mapping.put_next {b : Byte} (h : Mapping m u k us) (hd : dst.Apart m u k us) (hb : b = userByte m us va) (n : Nat) :
    ((m.put dst 1 fun _ => b).put (dst.add 1) n fun i => userByte (m.put dst 1 fun _ => b) us (va + 1 + i)) =
      m.put dst (n + 1) fun i => userByte m us (va + i) := by
  rw [put_put, Nat.add_comm 1 n]
  apply put_congr
  intro i _
  by_cases hi : i < 1
  · rw [if_pos hi, show i = 0 by omega]
    exact hb
  · rw [if_neg hi, (h.put hd _ 1 _).2.2, show va + 1 + (i - 1) = va + i by omega]

section Ends
variable {G : Label → Ram → Prop} {ok : Use → Prop} {E : Stop → Prop} (hG : Allows board m₀ G ok)
include hG

/-- `walkaddr` at a user page. -/
theorem Mapping.ends_walkaddr {e : Pte} (h : Mapping m u k us) (he : us[va / pgsize]? = some e) :
    (walkaddr u (pgrounddown va)).Ends G E m fun r m' => m' = m ∧ r = if isUser e.flags then some e.page else none := by
  obtain ⟨f, hf, hfus⟩ := h.user
  have hv := lt_pages h he
  refine (Memory.ends_walkaddr hG hf (by omega) (Finset.mem_univ _)).imp fun r m' hr => ?_
  rw [hfus _ hv, he] at hr
  exact hr

/-! ### From the user -/

/-- Every byte of a range is in a user page. -/
def InPages (us : List Pte) (va len : Nat) : Prop := ∀ i, i < len → (us[(va + i) / pgsize]?).isSome

theorem ends_moveIn (h : Mapping m u k us) (hd : dst.Apart m u k us) (n : Nat) (hin : InPages us va n) :
    (moveIn k dst va n).Ends G E m fun _ m' => m' = m.put dst n fun i => userByte m us (va + i) := by
  induction n generalizing m dst va with
  | zero => exact (put_zero dst _).symm
  | succ n ih =>
    obtain ⟨e, he⟩ := Option.isSome_iff_exists.mp (hin 0 (Nat.succ_pos n))
    rw [Nat.add_zero] at he
    unfold moveIn
    have hload : (load k va).Ends G E m fun b m' => m' = m ∧ b = userByte m us va := by
      unfold load
      apply Prog.Ends.look (hG.plain m)
      rw [h.load he]
      exact ⟨rfl, rfl⟩
    apply hload.bind
    intro b m' hb
    obtain ⟨rfl, rfl⟩ := hb
    apply Prog.Ends.change (hG.plain m')
    obtain ⟨h', hd', -⟩ := h.put hd 1 1 fun _ => userByte m' us va
    refine (ih h' hd' fun i hi => ?_).imp fun _ m'' hm'' => hm''.trans (h.put_next hd rfl n)
    rw [show va + 1 + i = va + (i + 1) by omega]
    exact hin (i + 1) (Nat.succ_lt_succ hi)

omit hG in
/-- The part of a range that lies in the page of its first byte. -/
theorem first_page {i : Nat} (hi : i < min (pgsize - (va - pgrounddown va)) len) :
    (va + i) / pgsize = va / pgsize ∧ (va + i) % pgsize = va - pgrounddown va + i := by
  simp only [pgsize_eq, pgrounddown] at hi ⊢
  omega

omit hG in
/-- The next round of a loop that goes on at the next page. -/
theorem next_round {rounds : Nat} (hva : va < 2 ^ 32) (hpos : len > 0)
    (hr : len + va % pgsize ≤ (rounds + 1) * pgsize ∨ len = 0) :
    u64 (pgrounddown va + pgsize) = pgrounddown va + pgsize ∧
      (len - min (pgsize - (va - pgrounddown va)) len + u64 (pgrounddown va + pgsize) % pgsize ≤ rounds * pgsize ∨
        len - min (pgsize - (va - pgrounddown va)) len = 0) ∧
      ∀ i, i < len - min (pgsize - (va - pgrounddown va)) len →
        u64 (pgrounddown va + pgsize) + i = va + (min (pgsize - (va - pgrounddown va)) len + i) := by
  simp only [pgsize_eq, pgrounddown, u64] at hr ⊢
  refine ⟨by omega, by omega, fun i hi => by omega⟩

omit hG in
/-- Whether the user may go there is decided by the page. -/
theorem usable_first_page {e : Pte} (he : us[va / pgsize]? = some e) {i : Nat}
    (hi : i < min (pgsize - (va - pgrounddown va)) len) : Usable us (va + i) ↔ isUser e.flags = true := by
  unfold Usable
  rw [(first_page hi).1, he]
  constructor
  · intro h
    obtain ⟨e', h1, h2⟩ := h
    cases h1
    exact h2
  · exact fun h2 => ⟨e, rfl, h2⟩

omit hG in
/-- What holds of the first `n` bytes of a range and of those behind them holds of all. -/
theorem forall_range {P : Nat → Prop} {n next : Nat} (hfirst : ∀ i, i < n → P (va + i)) (hrest : ∀ i, i < len - n → P (next + i))
    (hshift : ∀ i, i < len - n → next + i = va + (n + i)) : ∀ i, i < len → P (va + i) := by
  intro i hi
  by_cases hlt : i < n
  · exact hfirst i hlt
  · have h := hrest (i - n) (by omega)
    rwa [hshift _ (by omega), show n + (i - n) = i by omega] at h

theorem ends_copyinLoop (h : Mapping m u k us) (hd : dst.Apart m u k us) (hin : InPages us va len) (rounds : Nat)
    (hr : len + va % pgsize ≤ rounds * pgsize ∨ len = 0) :
    (copyinLoop u (rounds + 1) dst va len).Ends G E m fun r m' =>
      (r = 0 ∧ (∀ i, i < len → Usable us (va + i)) ∧ m' = m.put dst len fun i => userByte m us (va + i)) ∨
        (r = -1 ∧ ∃ i, i < len ∧ ¬ Usable us (va + i)) := by
  have hnone : ∀ {m : Ram} {dst : Dst} {va : Nat} (c : Vm Int), (if 0 > 0 then c else pure 0).Ends G E m fun r m' =>
      (r = 0 ∧ (∀ i, i < 0 → Usable us (va + i)) ∧ m' = m.put dst 0 fun i => userByte m us (va + i)) ∨
        (r = -1 ∧ ∃ i, i < 0 ∧ ¬ Usable us (va + i)) := by
    intro m dst va c
    rw [if_neg (Nat.lt_irrefl 0)]
    exact .inl ⟨rfl, fun i hi => absurd hi (Nat.not_lt_zero i), (put_zero dst _).symm⟩
  induction rounds generalizing m dst va len with
  | zero =>
    have hlen : len = 0 := by omega
    subst hlen
    exact hnone _
  | succ rounds ih =>
    by_cases hpos : len > 0
    · unfold copyinLoop
      rw [if_pos hpos]
      obtain ⟨e, he⟩ := Option.isSome_iff_exists.mp (hin 0 hpos)
      rw [Nat.add_zero] at he
      have hva : va < 2 ^ 32 := by
        have := lt_pages h he
        simp only [pgsize_eq] at this
        omega
      obtain ⟨hnext, hr', hshift⟩ := next_round hva hpos hr
      have hfirst : ∀ i, i < min (pgsize - (va - pgrounddown va)) len → (Usable us (va + i) ↔ isUser e.flags = true) :=
        fun i hi => usable_first_page he hi
      apply (h.ends_walkaddr hG he).bind
      intro r m' hr₁
      obtain ⟨rfl, rfl⟩ := hr₁
      cases hu : isUser e.flags with
      | false =>
        refine .inr ⟨rfl, 0, hpos, ?_⟩
        rw [hfirst 0 (by simp only [pgsize_eq, pgrounddown]; omega), hu]
        decide
      | true =>
        simp only [if_true]
        apply Prog.Ends.look (hG.plain m')
        apply Prog.Ends.change (hG.plain m')
        obtain ⟨h', hd', hbyte⟩ := h.put hd (min (pgsize - (va - pgrounddown va)) len)
          (min (pgsize - (va - pgrounddown va)) len) fun i => m'.byte e.page (va - pgrounddown va + i)
        refine (ih h' hd' (fun i hi => ?_) hr').imp fun r m'' hm'' => ?_
        · rw [hshift i hi]
          exact hin _ (by omega)
        -- the rest of the range, in terms of the whole
        obtain ⟨rfl, hall, rfl⟩ | ⟨rfl, i, hi, hnot⟩ := hm''
        · refine .inl ⟨rfl, forall_range (fun i hi => (hfirst i hi).mpr hu) hall hshift, ?_⟩
          rw [put_put, Nat.add_sub_cancel' (Nat.min_le_right _ _)]
          apply put_congr
          intro i hi
          by_cases hi' : i < min (pgsize - (va - pgrounddown va)) len
          · obtain ⟨hdiv, hmod⟩ := first_page hi'
            rw [if_pos hi', userByte, hdiv, he, hmod]
            rfl
          · rw [if_neg hi', hbyte, hshift _ (by omega), show min (pgsize - (va - pgrounddown va)) len +
              (i - min (pgsize - (va - pgrounddown va)) len) = i by omega]
        · rw [hshift i hi] at hnot
          exact .inr ⟨rfl, _, by omega, hnot⟩
    · have hlen : len = 0 := by omega
      subst hlen
      unfold copyinLoop
      exact hnone _

theorem ends_copyin (h : Mapping m u k us) (hd : dst.Apart m u k us) (hin : InPages us va len) :
    (copyin u dst va len).Ends G E m fun r m' =>
      (r = 0 ∧ (∀ i, i < len → Usable us (va + i)) ∧ m' = m.put dst len fun i => userByte m us (va + i)) ∨
        (r = -1 ∧ ∃ i, i < len ∧ ¬ Usable us (va + i)) := by
  apply ends_copyinLoop hG h hd hin
  simp only [pgsize_eq]
  omega

end Ends

/-! ### To the user -/

/-- The bytes of a range of user addresses were replaced, and nothing else. -/
structure Wrote (us : List Pte) (va len : Nat) (src : Nat → Byte) (m m' : Ram) : Prop where
  free : m'.free = m.free
  kern : m'.kern = m.kern
  use : m'.use = m.use
  other : ∀ p, (∀ e ∈ us, e.page ≠ p) → m'.byte p = m.byte p
  bytes : ∀ (v : Nat) (e : Pte) (o : Nat), us[v]? = some e → m'.byte e.page o =
    if o < pgsize ∧ va ≤ v * pgsize + o ∧ v * pgsize + o < va + len then src (v * pgsize + o - va) else m.byte e.page o

namespace Wrote

theorem nil : Wrote us va 0 src m m :=
  ⟨rfl, rfl, rfl, fun _ _ => rfl, fun v e o _ => by rw [if_neg (by omega)]⟩

/-- There is only one way. -/
theorem unique (h : Wrote us va len src m m') (h' : Wrote us va len src m m'') : m' = m'' := by
  have hbyte : m'.byte = m''.byte := by
    funext p
    by_cases hp : ∃ e ∈ us, e.page = p
    · obtain ⟨e, he, rfl⟩ := hp
      obtain ⟨v, hv⟩ := List.mem_iff_getElem?.mp he
      funext o
      rw [h.bytes v e o hv, h'.bytes v e o hv]
    · have hp' : ∀ e ∈ us, e.page ≠ p := fun e he heq => hp ⟨e, he, heq⟩
      rw [h.other p hp', h'.other p hp']
  cases m'
  cases m''
  simp only [Ram.mk.injEq]
  exact ⟨h.free.trans h'.free.symm, hbyte, h.kern.trans h'.kern.symm, h.use.trans h'.use.symm⟩

/-- A range behind a range. -/
theorem append {a : Nat} (h : Wrote us va a src m m') (h' : Wrote us (va + a) n (fun i => src (i + a)) m' m'') :
    Wrote us va (a + n) src m m'' := by
  refine ⟨h'.free.trans h.free, h'.kern.trans h.kern, h'.use.trans h.use,
    fun p hp => (h'.other p hp).trans (h.other p hp), fun v e o he => ?_⟩
  rw [h'.bytes v e o he, h.bytes v e o he]
  by_cases hsecond : o < pgsize ∧ va + a ≤ v * pgsize + o ∧ v * pgsize + o < va + a + n
  · rw [if_pos hsecond, if_pos (by omega)]
    congr 1
    omega
  · rw [if_neg hsecond]
    by_cases hfirst : o < pgsize ∧ va ≤ v * pgsize + o ∧ v * pgsize + o < va + a
    · rw [if_pos hfirst, if_pos (by omega)]
    · rw [if_neg hfirst, if_neg (by omega)]

/-- A range inside one page. -/
theorem page {e : Pte} {o : Nat} (hn : (us.map Pte.page).Nodup) (he : us[va / pgsize]? = some e) (ho : o = va % pgsize)
    (hfit : o + n ≤ pgsize) : Wrote us va n src m (m.write e.page (overwrite o n src (m.byte e.page))) := by
  refine ⟨rfl, rfl, rfl, fun p hp => m.write_byte_ne _ (hp e (List.mem_of_getElem? he)).symm, fun v e' x he' => ?_⟩
  have hva : va = va / pgsize * pgsize + o := by
    rw [ho]
    exact (Nat.div_add_mod' va pgsize).symm
  by_cases hv : v = va / pgsize
  · have hee : e = e' := by
      rw [hv] at he'
      exact Option.some.inj (he.symm.trans he')
    rw [← hee, Ram.write_byte]
    by_cases hx : o ≤ x ∧ x < o + n
    · rw [overwrite_in _ _ hx.1 hx.2, if_pos (by rw [hv]; omega)]
      congr 1
      rw [hv]
      omega
    · rw [overwrite_out _ _ (by omega), if_neg (by rw [hv]; omega)]
  · have hne : e'.page ≠ e.page := by
      intro heq
      refine hv ((List.getElem?_inj ?_ hn).mp ?_)
      · rw [List.length_map]
        exact (List.getElem?_eq_some_iff.mp he').1
      · rw [List.getElem?_map, List.getElem?_map, he, he', Option.map_some, Option.map_some, heq]
    rw [m.write_byte_ne _ hne]
    have hfar : ¬ (x < pgsize ∧ va ≤ v * pgsize + x ∧ v * pgsize + x < va + n) := by
      simp only [pgsize_eq] at hva hv hfit ⊢
      omega
    rw [if_neg hfar]

/-- The page tables do not notice. -/
theorem mapping (h : Wrote us va len src m m') (hmap : Mapping m u k us) : Mapping m' u k us :=
  (hmap.bytes (fun p hp => h.other p fun e he heq => (hmap.apart e he).1 (heq ▸ hp))
    fun p hp => h.other p fun e he heq => (hmap.apart e he).2 (heq ▸ hp)).1

end Wrote

section Ends
variable {G : Label → Ram → Prop} {ok : Use → Prop} {E : Stop → Prop} (hG : Allows board m₀ G ok)
include hG

theorem ends_moveOut (h : Mapping m u k us) (n : Nat) (hin : InPages us va n) :
    (moveOut k va src n).Ends G E m fun _ m' => Wrote us va n src m m' := by
  induction n generalizing m va src with
  | zero => exact .nil
  | succ n ih =>
    obtain ⟨e, he⟩ := Option.isSome_iff_exists.mp (hin 0 (Nat.succ_pos n))
    rw [Nat.add_zero] at he
    have hstore : (storeAt k va (src 0)).Ends G E m fun _ m' => Wrote us va 1 src m m' := by
      have hone : Function.update (m.byte e.page) (va % pgsize) (src 0) = overwrite (va % pgsize) 1 src (m.byte e.page) := by
        funext x
        rw [Function.update_apply]
        by_cases hx : x = va % pgsize
        · rw [if_pos hx, overwrite_in _ _ (by omega) (by omega), hx, Nat.sub_self]
        · rw [if_neg hx, overwrite_out _ _ (by omega)]
      refine ⟨hG.plain m, _, rfl, ?_⟩
      dsimp only
      rw [h.store he, Option.isSome_some, if_pos rfl, Option.getD_some, hone]
      exact Wrote.page h.nodup he rfl (Nat.mod_lt _ (by decide))
    unfold moveOut
    apply hstore.bind
    intro _ m₁ h₁
    refine (ih (h₁.mapping h) fun i hi => ?_).imp fun _ m' h' => ?_
    · rw [show va + 1 + i = va + (i + 1) by omega]
      exact hin (i + 1) (Nat.succ_lt_succ hi)
    · rw [Nat.add_comm n 1]
      exact h₁.append h'

theorem ends_copyoutLoop (h : Mapping m u k us) (hin : InPages us va len) (rounds : Nat)
    (hr : len + va % pgsize ≤ rounds * pgsize ∨ len = 0) :
    (copyoutLoop u (rounds + 1) va src len).Ends G E m fun r m' =>
      (r = 0 ∧ (∀ i, i < len → Usable us (va + i)) ∧ Wrote us va len src m m') ∨
        (r = -1 ∧ ∃ i, i < len ∧ ¬ Usable us (va + i)) := by
  have hnone : ∀ {m : Ram} {va : Nat} {src : Nat → Byte} (c : Vm Int), (if 0 > 0 then c else pure 0).Ends G E m fun r m' =>
      (r = 0 ∧ (∀ i, i < 0 → Usable us (va + i)) ∧ Wrote us va 0 src m m') ∨
        (r = -1 ∧ ∃ i, i < 0 ∧ ¬ Usable us (va + i)) := by
    intro m va src c
    rw [if_neg (Nat.lt_irrefl 0)]
    exact .inl ⟨rfl, fun i hi => absurd hi (Nat.not_lt_zero i), .nil⟩
  induction rounds generalizing m va src len with
  | zero =>
    have hlen : len = 0 := by omega
    subst hlen
    exact hnone _
  | succ rounds ih =>
    by_cases hpos : len > 0
    · unfold copyoutLoop
      rw [if_pos hpos]
      obtain ⟨e, he⟩ := Option.isSome_iff_exists.mp (hin 0 hpos)
      rw [Nat.add_zero] at he
      have hva : va < 2 ^ 32 := by
        have := lt_pages h he
        simp only [pgsize_eq] at this
        omega
      obtain ⟨hnext, hr', hshift⟩ := next_round hva hpos hr
      have hfirst : ∀ i, i < min (pgsize - (va - pgrounddown va)) len → (Usable us (va + i) ↔ isUser e.flags = true) :=
        fun i hi => usable_first_page he hi
      apply (h.ends_walkaddr hG he).bind
      intro r m' hr₁
      obtain ⟨rfl, rfl⟩ := hr₁
      cases hu : isUser e.flags with
      | false =>
        refine .inr ⟨rfl, 0, hpos, ?_⟩
        rw [hfirst 0 (by simp only [pgsize_eq, pgrounddown]; omega), hu]
        decide
      | true =>
        simp only [if_true]
        apply Prog.Ends.change (hG.plain m')
        have hoff : va - pgrounddown va = va % pgsize := by
          simp only [pgsize_eq, pgrounddown]
          omega
        have hpage : Wrote us va (min (pgsize - (va - pgrounddown va)) len) src m' _ := Wrote.page h.nodup he hoff (by
          simp only [pgsize_eq] at hoff ⊢
          omega)
        refine (ih (hpage.mapping h) (fun i hi => ?_) hr').imp fun r m'' hm'' => ?_
        · rw [hshift i hi]
          exact hin _ (by omega)
        obtain ⟨rfl, hall, hwrote⟩ | ⟨rfl, i, hi, hnot⟩ := hm''
        · refine .inl ⟨rfl, forall_range (fun i hi => (hfirst i hi).mpr hu) hall hshift, ?_⟩
          by_cases hend : len - min (pgsize - (va - pgrounddown va)) len = 0
          · simp only [hend] at hwrote
            have hsame := hwrote.unique .nil
            rw [← hsame, show min (pgsize - (va - pgrounddown va)) len = len by omega] at hpage
            exact hpage
          · have hstart := hshift 0 (by omega)
            simp only [Nat.add_zero] at hstart
            rw [hstart] at hwrote
            have hwhole := hpage.append hwrote
            rwa [Nat.add_sub_cancel' (Nat.min_le_right _ _)] at hwhole
        · rw [hshift i hi] at hnot
          exact .inr ⟨rfl, _, by omega, hnot⟩
    · have hlen : len = 0 := by omega
      subst hlen
      unfold copyoutLoop
      exact hnone _

theorem ends_copyout (h : Mapping m u k us) (hin : InPages us va len) :
    (copyout u va src len).Ends G E m fun r m' =>
      (r = 0 ∧ (∀ i, i < len → Usable us (va + i)) ∧ Wrote us va len src m m') ∨
        (r = -1 ∧ ∃ i, i < len ∧ ¬ Usable us (va + i)) := by
  apply ends_copyoutLoop hG h hin
  simp only [pgsize_eq]
  omega

/-! ### Strings -/

/-- A string of `n` bytes before its NUL stands at a user address. -/
def StringOf (m : Ram) (us : List Pte) (va n : Nat) : Prop :=
  (∀ i, i < n → userByte m us (va + i) ≠ 0) ∧ userByte m us (va + n) = 0

omit hG in
theorem stringOf_succ (hne : userByte m us va ≠ 0) : StringOf m us va (n + 1) ↔ StringOf m us (va + 1) n := by
  unfold StringOf
  rw [show va + (n + 1) = va + 1 + n by omega]
  refine and_congr_left fun _ => ⟨fun h i hi => ?_, fun h i hi => ?_⟩
  · rw [show va + 1 + i = va + (i + 1) by omega]
    exact h (i + 1) (Nat.succ_lt_succ hi)
  · cases i with
    | zero => exact hne
    | succ i =>
      rw [show va + (i + 1) = va + 1 + i by omega]
      exact h i (Nat.lt_of_succ_lt_succ hi)

theorem ends_copyinstr2 {sz : Nat} (h : Mapping m u k us) (hd : dst.Apart m u k us) (hsz : npages sz = us.length) (max : Nat) :
    (copyinstr2 sz k dst va max).Ends G E m fun r m' =>
      (r = 0 ∧ ∃ n, n < max ∧ va + n < sz ∧ StringOf m us va n ∧ m' = m.put dst (n + 1) fun i => userByte m us (va + i)) ∨
        (r = -1 ∧ ∀ n, n < max → va + n < sz → ¬ StringOf m us va n) := by
  induction max generalizing m dst va with
  | zero => exact .inr ⟨rfl, fun n hn => absurd hn (Nat.not_lt_zero n)⟩
  | succ max ih =>
    unfold copyinstr2
    by_cases hlt : va < sz
    · have hpage : va / pgsize < us.length := by
        unfold npages at hsz
        simp only [pgsize_eq]
        omega
      have he := List.getElem?_eq_getElem hpage
      rw [if_pos hlt]
      have hload : (load k va).Ends G E m fun b m' => m' = m ∧ b = userByte m us va := by
        unfold load
        apply Prog.Ends.look (hG.plain m)
        rw [h.load he]
        exact ⟨rfl, rfl⟩
      apply hload.bind
      intro b m' hb
      obtain ⟨rfl, rfl⟩ := hb
      by_cases hzero : userByte m' us va = 0
      · rw [if_pos hzero]
        apply Prog.Ends.change (hG.plain m')
        refine .inl ⟨rfl, 0, Nat.succ_pos max, hlt, ⟨fun i hi => absurd hi (Nat.not_lt_zero i), hzero⟩, ?_⟩
        apply put_congr
        intro i hi
        rw [show i = 0 by omega]
        exact hzero.symm
      · rw [if_neg hzero]
        apply Prog.Ends.change (hG.plain m')
        obtain ⟨h', hd', hbyte⟩ := h.put hd 1 1 fun _ => userByte m' us va
        have hstring : ∀ n, StringOf (m'.put dst 1 fun _ => userByte m' us va) us (va + 1) n ↔ StringOf m' us va (n + 1) := by
          intro n
          rw [stringOf_succ hzero]
          unfold StringOf
          simp only [hbyte]
        refine (ih h' hd').imp fun r m'' hm'' => ?_
        obtain ⟨rfl, n, hn, hin, hstr, rfl⟩ | ⟨rfl, hno⟩ := hm''
        · exact .inl ⟨rfl, n + 1, Nat.succ_lt_succ hn, by omega, (hstring n).mp hstr, h.put_next hd rfl (n + 1)⟩
        · refine .inr ⟨rfl, fun n hn hin => ?_⟩
          cases n with
          | zero => exact fun hstr => hzero hstr.2
          | succ n => exact fun hstr => hno n (Nat.lt_of_succ_lt_succ hn) (by omega) ((hstring n).mpr hstr)
    · rw [if_neg hlt]
      exact .inr ⟨rfl, fun n _ hn => absurd hn (by omega)⟩

theorem ends_copyinstrPage {p : Page} {o c : Nat} (h : Mapping m u k us) (hd : dst.Apart m u k us) (hstr : StringOf m us va n)
    (hp : ∃ e ∈ us, e.page = p) (hbyte : ∀ i, i < c → userByte m us (va + i) = m.byte p (o + i)) :
    (copyinstrPage p dst o c).Ends G E m fun r m' =>
      (n < c ∧ r = true ∧ m' = m.put dst (n + 1) fun i => userByte m us (va + i)) ∨
        (c ≤ n ∧ r = false ∧ m' = m.put dst c fun i => userByte m us (va + i)) := by
  induction c generalizing m dst va o n with
  | zero => exact .inr ⟨Nat.zero_le n, rfl, (put_zero dst _).symm⟩
  | succ c ih =>
    have hzero := hbyte 0 (Nat.succ_pos c)
    rw [Nat.add_zero, Nat.add_zero] at hzero
    unfold copyinstrPage
    apply Prog.Ends.look (hG.plain m)
    by_cases hnul : m.byte p o = 0
    · rw [if_pos hnul]
      have hn : n = 0 := by
        by_contra hne
        have hne' := hstr.1 0 (by omega)
        rw [Nat.add_zero, hzero] at hne'
        exact hne' hnul
      subst hn
      apply Prog.Ends.change (hG.plain m)
      refine .inl ⟨Nat.succ_pos c, rfl, put_congr dst 1 fun i hi => ?_⟩
      rw [show i = 0 by omega]
      exact hstr.2.symm
    · rw [if_neg hnul]
      have hne : userByte m us va ≠ 0 := by
        rw [hzero]
        exact hnul
      cases n with
      | zero => exact absurd hstr.2 hne
      | succ n =>
        apply Prog.Ends.change (hG.plain m)
        obtain ⟨h', hd', hsame⟩ := h.put hd 1 1 fun _ => m.byte p o
        have hkept : (m.put dst 1 fun _ => m.byte p o).byte p = m.byte p := by
          apply put_byte_ne
          intro x hx
          rw [hx] at hd
          obtain ⟨e, he, hep⟩ := hp
          exact hd.2.2 e he hep
        have hstr' : StringOf (m.put dst 1 fun _ => m.byte p o) us (va + 1) n := by
          have hnext := (stringOf_succ hne).mp hstr
          unfold StringOf at hnext ⊢
          simp only [hsame]
          exact hnext
        refine (ih h' hd' hstr' (fun i hi => ?_)).imp fun r m' hm' => ?_
        · rw [hsame, hkept, show va + 1 + i = va + (i + 1) by omega, show o + 1 + i = o + (i + 1) by omega]
          exact hbyte (i + 1) (Nat.succ_lt_succ hi)
        rw [h.put_next hd hzero.symm, h.put_next hd hzero.symm] at hm'
        obtain ⟨hlt, rfl, hput⟩ | ⟨hle, rfl, hput⟩ := hm'
        · exact .inl ⟨Nat.succ_lt_succ hlt, rfl, hput⟩
        · exact .inr ⟨Nat.succ_le_succ hle, rfl, hput⟩

theorem ends_copyinstrLoop {max : Nat} (h : Mapping m u k us) (hd : dst.Apart m u k us) (hstr : StringOf m us va n) (hlt : n < max)
    (hin : InPages us va (n + 1)) (rounds : Nat) (hr : n + 1 + va % pgsize ≤ rounds * pgsize) :
    (copyinstrLoop u rounds dst va max).Ends G E m fun r m' =>
      (r = 0 ∧ (∀ i, i < n + 1 → Usable us (va + i)) ∧ m' = m.put dst (n + 1) fun i => userByte m us (va + i)) ∨
        (r = -1 ∧ ∃ i, i < n + 1 ∧ ¬ Usable us (va + i)) := by
  induction rounds generalizing m dst va n max with
  | zero => omega
  | succ rounds ih =>
    obtain ⟨e, he⟩ := Option.isSome_iff_exists.mp (hin 0 (Nat.succ_pos n))
    rw [Nat.add_zero] at he
    have hva : va < 2 ^ 32 := by
      have := lt_pages h he
      simp only [pgsize_eq] at this
      omega
    unfold copyinstrLoop
    rw [if_pos (by omega : max > 0)]
    apply (h.ends_walkaddr hG he).bind
    intro r m' hr₁
    obtain ⟨rfl, rfl⟩ := hr₁
    have hfirst : ∀ i, i < min (pgsize - (va - pgrounddown va)) max → (Usable us (va + i) ↔ isUser e.flags = true) :=
      fun i hi => usable_first_page he hi
    cases hu : isUser e.flags with
    | false =>
      refine .inr ⟨rfl, 0, Nat.succ_pos n, ?_⟩
      rw [hfirst 0 (by simp only [pgsize_eq, pgrounddown]; omega), hu]
      decide
    | true =>
      simp only [if_true]
      obtain ⟨c, hc⟩ : ∃ c, c = min (pgsize - (va - pgrounddown va)) max := ⟨_, rfl⟩
      simp only [← hc] at hfirst ⊢
      have hpage : ∀ i, i < c → userByte m' us (va + i) = m'.byte e.page (va - pgrounddown va + i) := by
        intro i hi
        rw [hc] at hi
        rw [userByte, (first_page hi).1, he, (first_page hi).2]
        rfl
      apply (ends_copyinstrPage hG h hd hstr ⟨e, List.mem_of_getElem? he, rfl⟩ hpage).bind
      intro r m'' hr₂
      obtain ⟨hnc, rfl, hput⟩ | ⟨hcn, rfl, hput⟩ := hr₂
      · exact .inl ⟨rfl, fun i hi => (hfirst i (by omega)).mpr hu, hput⟩
      · -- the string goes on at the next page
        obtain ⟨h', hd', hbyte⟩ := h.put hd c c fun i => userByte m' us (va + i)
        have hnext : u64 (pgrounddown va + pgsize) = va + c := by
          simp only [pgsize_eq, pgrounddown, u64] at hc ⊢
          omega
        have hstr' : StringOf (m'.put dst c fun i => userByte m' us (va + i)) us (va + c) (n - c) := by
          unfold StringOf
          simp only [hbyte]
          refine ⟨fun i hi => ?_, ?_⟩
          · rw [Nat.add_assoc]
            exact hstr.1 (c + i) (by omega)
          · rw [show va + c + (n - c) = va + n by omega]
            exact hstr.2
        rw [← hput] at h' hd' hbyte hstr'
        rw [hnext]
        refine (ih h' hd' hstr' (by omega) (fun i hi => ?_) ?_).imp fun r m₃ hr₃ => ?_
        · rw [show va + c + i = va + (c + i) by omega]
          exact hin (c + i) (by omega)
        · simp only [pgsize_eq, pgrounddown] at hc hr ⊢
          omega
        obtain ⟨rfl, hall, hput'⟩ | ⟨rfl, i, hi, hnot⟩ := hr₃
        · refine .inl ⟨rfl, forall_range (fun i hi => (hfirst i hi).mpr hu) (fun i hi => ?_)
            fun i _ => Nat.add_assoc va c i, ?_⟩
          · exact hall i (by omega)
          · rw [hput', hput, put_put, show c + (n - c + 1) = n + 1 by omega]
            apply put_congr
            intro i hi
            by_cases hi' : i < c
            · rw [if_pos hi']
            · rw [if_neg hi', ← hput, hbyte, show va + c + (i - c) = va + i by omega]
        · refine .inr ⟨rfl, c + i, by omega, ?_⟩
          rw [← Nat.add_assoc]
          exact hnot

theorem ends_copyinstr {max : Nat} (h : Mapping m u k us) (hd : dst.Apart m u k us) (hstr : StringOf m us va n) (hlt : n < max)
    (hin : InPages us va (n + 1)) :
    (copyinstr u dst va max).Ends G E m fun r m' =>
      (r = 0 ∧ (∀ i, i < n + 1 → Usable us (va + i)) ∧ m' = m.put dst (n + 1) fun i => userByte m us (va + i)) ∨
        (r = -1 ∧ ∃ i, i < n + 1 ∧ ¬ Usable us (va + i)) := by
  apply ends_copyinstrLoop hG h hd hstr hlt hin
  simp only [pgsize_eq]
  omega

/-! ### The range checks -/

/-- A range lies below the size of the process. -/
def Inside (sz va len : Nat) : Prop := va < sz ∧ va + len ≤ sz

omit hG in
theorem Inside.pages {sz : Nat} (h : Inside sz va len) (hsz : npages sz = us.length) : InPages us va len := by
  intro i hi
  rw [Option.isSome_iff_exists]
  obtain ⟨h1, h2⟩ := h
  unfold npages at hsz
  refine ⟨_, List.getElem?_eq_getElem ?_⟩
  simp only [pgsize_eq]
  omega

omit hG in
/-- The sum of the check does not wrap around. -/
theorem check_iff {sz : Nat} (h : Mapping m u k us) (hsz : npages sz = us.length) (hlen : len < 2 ^ 63) :
    (u64 (va + len) > sz ∨ va ≥ sz) ↔ ¬ Inside sz va len := by
  have hfew := h.few
  unfold npages at hsz
  unfold Inside u64
  omega

theorem ends_copyin2 {sz : Nat} (h : Mapping m u k us) (hd : dst.Apart m u k us) (hsz : npages sz = us.length) (hlen : len < 2 ^ 63) :
    (copyin2 sz k dst va len).Ends G E m fun r m' =>
      (r = 0 ∧ Inside sz va len ∧ m' = m.put dst len fun i => userByte m us (va + i)) ∨ (r = -1 ∧ ¬ Inside sz va len ∧ m' = m) := by
  unfold copyin2
  by_cases hin : Inside sz va len
  · rw [if_neg fun hc => (check_iff h hsz hlen).mp hc hin]
    apply (ends_moveIn hG h hd len (hin.pages hsz)).bind
    exact fun _ m' hm' => .inl ⟨rfl, hin, hm'⟩
  · rw [if_pos ((check_iff h hsz hlen).mpr hin)]
    exact .inr ⟨rfl, hin, rfl⟩

theorem ends_copyout2 {sz : Nat} (h : Mapping m u k us) (hsz : npages sz = us.length) (hlen : len < 2 ^ 63) :
    (copyout2 sz k va src len).Ends G E m fun r m' =>
      (r = 0 ∧ Inside sz va len ∧ Wrote us va len src m m') ∨ (r = -1 ∧ ¬ Inside sz va len ∧ m' = m) := by
  unfold copyout2
  by_cases hin : Inside sz va len
  · rw [if_neg fun hc => (check_iff h hsz hlen).mp hc hin]
    apply (ends_moveOut hG h len (hin.pages hsz)).bind
    exact fun _ m' hm' => .inl ⟨rfl, hin, hm'⟩
  · rw [if_pos ((check_iff h hsz hlen).mpr hin)]
    exact .inr ⟨rfl, hin, rfl⟩

end Ends
end Farron.Memory
