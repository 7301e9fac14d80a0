import Farron.Memory.Segments

/-! The arguments on the user stack.

`Stacked` is a stack under way: its pointer, where the strings are that have been pushed, and the
bytes of the memory. A string is pushed below the last one, at a multiple of 16, and the
array of pointers below them all. `pushStack` does just that to the pages, and gives up where
`Stacked.ofArgs` has no result, which is if and only if there are too many strings or they
do not fit into a page (`ofArgs_isSome`). -/
namespace Farron.Memory
open Resumption Radix

variable {board : Board} {m₀ m m' : Ram} {R : Multiset (Page × Use)} {E : Stop → Prop} {im : Image} {u k : Page} {us : List Pte}
  {guard : Option Nat} {base sp top len n : Nat} {src : Nat → Byte} {s : CString} {argv : List CString}

/-! ### Multiples of 16 -/

/-- Down to a multiple of 16. -/
def down16 (n : Nat) : Nat := n - n % 16

/-- Up to a multiple of 16. -/
def up16 (n : Nat) : Nat := (n + 15) / 16 * 16

theorem down16_mod (n : Nat) : down16 n % 16 = 0 := by
  unfold down16
  omega

theorem down16_le (n : Nat) : down16 n ≤ n := Nat.sub_le _ _

theorem down16_sub (h : sp % 16 = 0) (hle : up16 len ≤ sp) : down16 (sp - len) = sp - up16 len := by
  unfold down16 up16 at *
  omega

/-! ### The stack -/

structure Stacked where
  sp : Nat
  ptrs : List Nat
  bytes : Nat → Byte

namespace Stacked

/-- Bytes are pushed, unless they come below `base`. -/
def put (base : Nat) (x : Stacked) (len : Nat) (src : Nat → Byte) : Option Stacked :=
  if base ≤ down16 (x.sp - len) then
    some { x with sp := down16 (x.sp - len), bytes := overwrite (down16 (x.sp - len)) len src x.bytes }
  else none

/-- A string is pushed, with the NUL behind it. -/
def string (base : Nat) (x : Stacked) (s : CString) : Option Stacked :=
  if x.ptrs.length < maxarg then
    (x.put base (s.length + 1) (bytesOf s)).map fun y => { y with ptrs := x.ptrs ++ [y.sp] }
  else none

def strings (base : Nat) (x : Stacked) : List CString → Option Stacked
  | [] => some x
  | s :: rest => (x.string base s).bind fun y => y.strings base rest

/-- The array of pointers, with a null pointer behind them. -/
def vector (base : Nat) (x : Stacked) : Option Stacked :=
  x.put base ((x.ptrs.length + 1) * 8) (wordsOf (x.ptrs ++ [0]))

/-- The stack that `exec` makes for these arguments, in the page from `base` on. -/
def ofArgs (base : Nat) (bytes : Nat → Byte) (argv : List CString) : Option Stacked :=
  (strings base ⟨base + pgsize, [], bytes⟩ argv).bind (vector base)

variable {x y : Stacked}

/-- What a push leaves. -/
structure Put (base : Nat) (x : Stacked) (len : Nat) (src : Nat → Byte) (y : Stacked) : Prop where
  sp : y.sp = down16 (x.sp - len)
  ptrs : y.ptrs = x.ptrs
  bytes : y.bytes = overwrite y.sp len src x.bytes
  above : base ≤ y.sp
  below : y.sp ≤ x.sp

theorem put_eq (h : x.put base len src = some y) : Put base x len src y := by
  unfold put at h
  split at h
  next hroom =>
    cases h
    exact ⟨rfl, rfl, rfl, hroom, (down16_le _).trans (Nat.sub_le _ _)⟩
  next => cases h

theorem few_ptrs (h : x.strings base argv = some y) (hx : x.ptrs.length ≤ maxarg) : y.ptrs.length ≤ maxarg := by
  induction argv generalizing x with
  | nil =>
    cases h
    exact hx
  | cons s argv ih =>
    obtain ⟨x₁, h₁, h₂⟩ := Option.bind_eq_some_iff.mp h
    refine ih h₂ ?_
    unfold string at h₁
    split at h₁
    next hlt =>
      obtain ⟨x₂, -, rfl⟩ := Option.map_eq_some_iff.mp h₁
      rw [List.length_append]
      exact hlt
    next => cases h₁

/-! What the pushes leave, one after the other. -/

/-- The strings `pushed` are between the stack pointer and `top`, each at its pointer; outside nothing
has changed. -/
structure Spread (base top : Nat) (b : Nat → Byte) (pushed : List CString) (x : Stacked) : Prop where
  aligned : x.sp % 16 = 0
  above : base ≤ x.sp
  below : x.sp ≤ top
  count : x.ptrs.length = pushed.length
  strings : ∀ (i : Nat) (s : CString), pushed[i]? = some s → ∃ q, x.ptrs[i]? = some q ∧ q % 16 = 0 ∧ x.sp ≤ q ∧ q + s.length + 1 ≤ top ∧
    ∀ j, j ≤ s.length → x.bytes (q + j) = bytesOf s j
  other : ∀ a, a < x.sp ∨ top ≤ a → x.bytes a = b a

/-- Before anything is pushed. -/
theorem Spread.start (b : Nat → Byte) (h : (base + pgsize) % 16 = 0) : Spread base (base + pgsize) b [] ⟨base + pgsize, [], b⟩ :=
  ⟨h, Nat.le_add_right _ _, Nat.le_refl _, rfl, nofun, fun _ _ => rfl⟩

section Pushes
variable {b : Nat → Byte} {pushed : List CString} (hbase : 0 < base)
include hbase

/-- What is pushed ends below the old stack pointer. -/
theorem Put.end_le (h : Put base x len src y) : y.sp + len ≤ x.sp := by
  have hsp := h.sp
  have habove := h.above
  unfold down16 at hsp
  omega

theorem Spread.put (h : Spread base top b pushed x) (hput : Put base x len src y) : Spread base top b pushed y := by
  have hend := hput.end_le hbase
  have habove := h.below
  refine ⟨?_, hput.above, hput.below.trans h.below, ?_, fun i s hi => ?_, fun a ha => ?_⟩
  · rw [hput.sp]
    exact down16_mod _
  · rw [hput.ptrs]
    exact h.count
  · obtain ⟨q, hq, hmod, hle, htop, hbytes⟩ := h.strings i s hi
    refine ⟨q, by rw [hput.ptrs]; exact hq, hmod, hput.below.trans hle, htop, fun j hj => ?_⟩
    rw [hput.bytes, overwrite_out _ _ (by omega)]
    exact hbytes j hj
  · rw [hput.bytes, overwrite_out _ _ (by omega)]
    exact h.other a (by omega)

theorem Spread.string (h : Spread base top b pushed x) (hstr : x.string base s = some y) : Spread base top b (pushed ++ [s]) y := by
  unfold Stacked.string at hstr
  split at hstr
  next =>
    obtain ⟨z, hz, rfl⟩ := Option.map_eq_some_iff.mp hstr
    have hput := put_eq hz
    have hz' := h.put hbase hput
    have hend := hput.end_le hbase
    have hbelow := h.below
    refine ⟨hz'.aligned, hz'.above, hz'.below, ?_, fun i s' hi => ?_, hz'.other⟩
    · rw [List.length_append, List.length_append, h.count]
      rfl
    · rw [getElem?_concat] at hi
      show ∃ q, (x.ptrs ++ [z.sp])[i]? = some q ∧ _
      rw [getElem?_concat, h.count]
      by_cases hlast : i = pushed.length
      · rw [if_pos hlast] at hi ⊢
        cases hi
        refine ⟨z.sp, rfl, hz'.aligned, Nat.le_refl _, by omega, fun j hj => ?_⟩
        show z.bytes (z.sp + j) = _
        rw [hput.bytes, overwrite_in _ _ (by omega) (by omega), Nat.add_sub_cancel_left]
      · rw [if_neg hlast] at hi ⊢
        obtain ⟨q, hq, hrest⟩ := hz'.strings i s' hi
        rw [hput.ptrs] at hq
        exact ⟨q, hq, hrest⟩
  next => cases hstr

theorem Spread.strings_of (h : Spread base top b pushed x) (hstr : x.strings base argv = some y) : Spread base top b (pushed ++ argv) y := by
  induction argv generalizing x pushed with
  | nil =>
    cases hstr
    rw [List.append_nil]
    exact h
  | cons s argv ih =>
    obtain ⟨x₁, h₁, h₂⟩ := Option.bind_eq_some_iff.mp hstr
    have hrest := ih (h.string hbase h₁) h₂
    rwa [List.append_assoc, List.singleton_append] at hrest

end Pushes

/-- What `main` finds: the array of pointers at the stack pointer, and each string at its pointer. -/
structure Arranged (base : Nat) (b : Nat → Byte) (argv : List CString) (x : Stacked) : Prop extends
    Spread base (base + pgsize) b argv x where
  vector : ∀ i, i ≤ argv.length → word64 x.bytes (x.sp + 8 * i) = x.ptrs.getD i 0
  apart : ∀ q ∈ x.ptrs, x.sp + 8 * (argv.length + 1) ≤ q

/-- The bytes of a word, read as a word. -/
theorem word64_wordByte {v o : Nat} {f : Nat → Byte} (hv : v < 2 ^ 64) (hf : ∀ i, i < 8 → f (o + i) = wordByte v i) : word64 f o = v := by
  have hbyte : ∀ i, i < 8 → (f (o + i)).toNat = v / 256 ^ i % 256 := by
    intro i hi
    rw [hf i hi]
    exact UInt8.toNat_ofNat'
  have h0 := hbyte 0 (by omega)
  have h1 := hbyte 1 (by omega)
  have h2 := hbyte 2 (by omega)
  have h3 := hbyte 3 (by omega)
  have h4 := hbyte 4 (by omega)
  have h5 := hbyte 5 (by omega)
  have h6 := hbyte 6 (by omega)
  have h7 := hbyte 7 (by omega)
  norm_num at h0 h1 h2 h3 h4 h5 h6 h7
  unfold word64 word32
  simp only [Nat.add_assoc, Nat.reduceAdd]
  rw [h0, h1, h2, h3, h4, h5, h6, h7]
  omega

theorem ofArgs_arranged {b : Nat → Byte} (hbase : 0 < base) (halign : base % 16 = 0) (hmax : base + pgsize < 2 ^ 64)
    (h : ofArgs base b argv = some y) : Arranged base b argv y := by
  obtain ⟨x, hx, hy⟩ := Option.bind_eq_some_iff.mp h
  have hsp : (base + pgsize) % 16 = 0 := by
    simp only [pgsize_eq]
    omega
  have hspread := (Spread.start b hsp).strings_of hbase hx
  rw [List.nil_append] at hspread
  have hput := put_eq hy
  have hend := hput.end_le hbase
  have hcount := hspread.count
  refine ⟨hspread.put hbase hput, fun i hi => ?_, fun q hq => ?_⟩
  · have hword : (x.ptrs ++ [0]).getD i 0 = y.ptrs.getD i 0 := by
      rw [hput.ptrs, List.getD_eq_getElem?_getD, List.getD_eq_getElem?_getD, getElem?_concat]
      by_cases hlast : i = x.ptrs.length
      · rw [if_pos hlast, List.getElem?_eq_none (by omega)]
        rfl
      · rw [if_neg hlast]
    rw [← hword]
    apply word64_wordByte
    · rw [hword, hput.ptrs, List.getD_eq_getElem?_getD]
      cases hs : argv[i]? with
      | none =>
        rw [List.getElem?_eq_none (by rw [List.getElem?_eq_none_iff] at hs; omega)]
        exact Nat.two_pow_pos 64
      | some s =>
        obtain ⟨q, hq, -, -, htop, -⟩ := hspread.strings i s hs
        rw [hq]
        show q < 2 ^ 64
        omega
    · intro j hj
      rw [hput.bytes, overwrite_in _ _ (by omega) (by omega)]
      unfold wordsOf
      rw [show y.sp + 8 * i + j - y.sp = 8 * i + j by omega, show (8 * i + j) / 8 = i by omega, show (8 * i + j) % 8 = j by omega]
  · rw [hput.ptrs] at hq
    obtain ⟨i, hi⟩ := List.mem_iff_getElem?.mp hq
    have hlt := (List.getElem?_eq_some_iff.mp hi).1
    obtain ⟨q', hq', -, hle, -⟩ := hspread.strings i argv[i] (List.getElem?_eq_getElem (by omega))
    rw [hi] at hq'
    cases hq'
    omega

/-! When they fit. -/

/-- The room that the strings take. -/
def stringRoom (argv : List CString) : Nat := (argv.map fun s => up16 (s.length + 1)).sum

/-- The room that all of it takes. -/
def argRoom (argv : List CString) : Nat := stringRoom argv + up16 ((argv.length + 1) * 8)

section Fits
variable (hbase : 0 < base) (halign : base % 16 = 0)
include hbase halign

theorem room_iff (hsp : sp % 16 = 0) : base ≤ down16 (sp - len) ↔ base + up16 len ≤ sp := by
  unfold down16 up16
  omega

theorem put_isSome (hsp : x.sp % 16 = 0) : (x.put base len src).isSome ↔ base + up16 len ≤ x.sp := by
  unfold put
  rw [← room_iff hbase halign hsp]
  split
  next h => simp only [Option.isSome_some, h]
  next h => simp only [Option.isSome_none, Bool.false_eq_true, h]

theorem strings_isSome (hsp : x.sp % 16 = 0) (hx : base ≤ x.sp) (hfew : x.ptrs.length ≤ maxarg) :
    (x.strings base argv).isSome ↔ x.ptrs.length + argv.length ≤ maxarg ∧ base + stringRoom argv ≤ x.sp := by
  induction argv generalizing x with
  | nil => exact ⟨fun _ => ⟨hfew, hx⟩, fun _ => rfl⟩
  | cons s argv ih =>
    have hroom : stringRoom (s :: argv) = up16 (s.length + 1) + stringRoom argv := by
      unfold stringRoom
      rw [List.map_cons, List.sum_cons]
    rw [hroom, List.length_cons]
    unfold strings string
    by_cases hmany : x.ptrs.length < maxarg
    · rw [if_pos hmany]
      have hput : (x.put base (s.length + 1) (bytesOf s)).isSome ↔ base + up16 (s.length + 1) ≤ x.sp := put_isSome hbase halign hsp
      cases hc : x.put base (s.length + 1) (bytesOf s) with
      | none =>
        rw [hc] at hput
        simp only [Option.map_none, Option.bind_none, Option.isSome_none, Bool.false_eq_true, false_iff] at hput ⊢
        omega
      | some y =>
        rw [hc] at hput
        have hroom' := hput.mp rfl
        have hy := put_eq hc
        have hsp' : y.sp = x.sp - up16 (s.length + 1) := by
          rw [hy.sp, down16_sub hsp (by omega)]
        dsimp only [Option.map_some, Option.bind_some]
        rw [ih (x := { y with ptrs := x.ptrs ++ [y.sp] }) ?_ hy.above ?_]
        · show (x.ptrs ++ [y.sp]).length + argv.length ≤ maxarg ∧ base + stringRoom argv ≤ y.sp ↔ _
          rw [List.length_append, List.length_singleton]
          omega
        · show y.sp % 16 = 0
          rw [hy.sp]
          exact down16_mod _
        · show (x.ptrs ++ [y.sp]).length ≤ maxarg
          rw [List.length_append]
          exact hmany
    · rw [if_neg hmany]
      simp only [Option.bind_none, Option.isSome_none, Bool.false_eq_true, false_iff]
      omega

end Fits

theorem strings_sp (hstr : x.strings base argv = some y) (hbase : 0 < base) (halign : base % 16 = 0) (hsp : x.sp % 16 = 0) :
    y.sp + stringRoom argv = x.sp := by
  induction argv generalizing x with
  | nil =>
    cases hstr
    rfl
  | cons s argv ih =>
    obtain ⟨x₁, h₁, h₂⟩ := Option.bind_eq_some_iff.mp hstr
    unfold string at h₁
    split at h₁
    next =>
      obtain ⟨z, hz, rfl⟩ := Option.map_eq_some_iff.mp h₁
      have hroom := (put_isSome hbase halign hsp).mp (Option.isSome_of_mem hz)
      have hput := put_eq hz
      have hz' : z.sp = x.sp - up16 (s.length + 1) := by rw [hput.sp, down16_sub hsp (by omega)]
      have hrest := ih h₂ (by rw [hput.sp]; exact down16_mod _)
      have hcons : stringRoom (s :: argv) = up16 (s.length + 1) + stringRoom argv := by
        unfold stringRoom
        rw [List.map_cons, List.sum_cons]
      have hrest : y.sp + stringRoom argv = z.sp := hrest
      omega
    next => cases h₁

/-- The arguments find room if and only if there are not too many and a page holds them. -/
theorem ofArgs_isSome {b : Nat → Byte} (hbase : 0 < base) (halign : base % 16 = 0) :
    (ofArgs base b argv).isSome ↔ argv.length ≤ maxarg ∧ argRoom argv ≤ pgsize := by
  have hsp : (base + pgsize) % 16 = 0 := by
    simp only [pgsize_eq]
    omega
  have hstr : (strings base ⟨base + pgsize, [], b⟩ argv).isSome ↔ ([] : List Nat).length + argv.length ≤ maxarg ∧
      base + stringRoom argv ≤ base + pgsize := strings_isSome hbase halign hsp (Nat.le_add_right _ _) (Nat.zero_le _)
  simp only [List.length_nil, Nat.zero_add] at hstr
  unfold ofArgs argRoom
  cases hc : strings base ⟨base + pgsize, [], b⟩ argv with
  | none =>
    rw [hc] at hstr
    simp only [Option.bind_none, Option.isSome_none, Bool.false_eq_true, false_iff] at hstr ⊢
    omega
  | some x =>
    rw [hc] at hstr
    obtain ⟨hmany, hroom⟩ := hstr.mp rfl
    have hx := strings_sp hc hbase halign hsp
    have hspread := (Spread.start b hsp).strings_of hbase hc
    have hcount : x.ptrs.length = argv.length := hspread.count
    have hsp' := hspread.aligned
    have hx : x.sp + stringRoom argv = base + pgsize := hx
    dsimp only [Option.bind_some]
    unfold vector
    rw [put_isSome hbase halign hsp', hcount]
    omega

end Stacked

/-! ### On the pages -/

theorem sub64_of_le (h : len ≤ sp) (hsp : sp < 2 ^ 64) : sub64 sp len = sp - len := by
  unfold sub64 u64
  omega

section Ends
variable (hm : Stocked board m₀) (hbase : (base + pgsize) = us.length * pgsize) (hguard : guard ≠ some (us.length - 1))
include hm hbase hguard

/-- The page of the stack is the last one. -/
theorem ends_push (h : Building board m₀ R im u k guard us m) (x : Stacked) (hbytes : userByte m us = x.bytes)
    (hsp : x.sp ≤ base + pgsize) (hlen : len ≤ x.sp) (hpos : 0 < len) :
    (push u base x.sp src len).Ends (Sound board) E m fun r m' => Building board m₀ R im u k guard us m' ∧ Same R m m' ∧ m'.free = m.free ∧
      r = (x.put base len src).map Stacked.sp ∧ ∀ y, x.put base len src = some y → userByte m' us = y.bytes := by
  have hfew := h.few hm
  have hsub : sub64 x.sp len = x.sp - len := by
    apply sub64_of_le hlen
    simp only [pgsize_eq] at hbase hsp
    omega
  unfold push Stacked.put
  rw [hsub]
  show Prog.Ends (Sound board) E (if down16 (x.sp - len) < base then _ else _) m _
  by_cases hroom : base ≤ down16 (x.sp - len)
  · rw [if_neg (by omega), if_pos hroom]
    have hend : down16 (x.sp - len) + len ≤ us.length * pgsize := by
      have := down16_le (x.sp - len)
      omega
    have hpage : ∀ i, i < len → (down16 (x.sp - len) + i) / pgsize = us.length - 1 := by
      intro i hi
      simp only [pgsize_eq] at hbase hend ⊢
      omega
    obtain ⟨e, hlast⟩ : ∃ e, us[us.length - 1]? = some e := by
      refine ⟨_, List.getElem?_eq_getElem ?_⟩
      simp only [pgsize_eq] at hbase
      omega
    have hin : InPages us (down16 (x.sp - len)) len := by
      intro i hi
      rw [hpage i hi, hlast]
      rfl
    have husable : ∀ i, i < len → Usable us (down16 (x.sp - len) + i) := by
      intro i hi
      refine ⟨e, by rw [hpage i hi, hlast], ?_⟩
      rw [h.flags _ _ hlast, if_neg hguard]
      rfl
    apply (ends_copyout (sound_allows hm) (h.mapping hm) hin).bind
    intro r m₁ hr
    obtain ⟨rfl, -, hw⟩ | ⟨rfl, i, hi, hnot⟩ := hr
    · rw [if_neg (by decide)]
      obtain ⟨h₁, hs₁⟩ := h.wrote hm hw
      refine ⟨h₁, hs₁, hw.free, rfl, fun y hy => ?_⟩
      cases hy
      rw [userByte_wrote hw hend, hbytes]
    · exact absurd (husable i hi) hnot
  · rw [if_pos (by omega), if_neg hroom]
    exact ⟨h, Same.refl R m, rfl, rfl, nofun⟩

variable (hlow : pgsize ≤ base)
include hlow

theorem ends_pushArgs {x : Stacked} (h : Building board m₀ R im u k guard us m) (hbytes : userByte m us = x.bytes)
    (hargs : ∀ s ∈ argv, s.length < pgsize) (hsp : base ≤ x.sp ∧ x.sp ≤ base + pgsize) :
    (pushArgs u base argv x.sp x.ptrs).Ends (Sound board) E m fun r m' => Building board m₀ R im u k guard us m' ∧ Same R m m' ∧ m'.free = m.free ∧
      r = (x.strings base argv).map (fun y => (y.sp, y.ptrs)) ∧
        ∀ y, x.strings base argv = some y → userByte m' us = y.bytes ∧ base ≤ y.sp ∧ y.sp ≤ base + pgsize := by
  induction argv generalizing x m with
  | nil =>
    refine ⟨h, Same.refl R m, rfl, rfl, fun y hy => ?_⟩
    cases hy
    exact ⟨hbytes, hsp⟩
  | cons s argv ih =>
    unfold pushArgs Stacked.strings Stacked.string
    by_cases hmany : x.ptrs.length < maxarg
    · rw [if_neg (Nat.not_le.mpr hmany), if_pos hmany]
      have hs := hargs s List.mem_cons_self
      apply (ends_push hm hbase hguard h x hbytes hsp.2 (by omega) (Nat.succ_pos _)).bind
      intro r m₁ hr
      obtain ⟨h₁, hs₁, hfree₁, rfl, hbytes₁⟩ := hr
      cases hput : x.put base (s.length + 1) (bytesOf s) with
      | none => exact ⟨h₁, hs₁, hfree₁, rfl, nofun⟩
      | some y =>
        have hy := Stacked.put_eq hput
        dsimp only [Option.map_some, Option.bind_some]
        refine (ih (x := { y with ptrs := x.ptrs ++ [y.sp] }) h₁ (hbytes₁ y hput) (fun s hs => hargs s (List.mem_cons_of_mem _ hs))
          ⟨hy.above, hy.below.trans hsp.2⟩).imp fun r m' hr => ?_
        · obtain ⟨h₂, hs₂, hfree₂, hr, hall⟩ := hr
          exact ⟨h₂, hs₁.trans hs₂, hfree₂.trans hfree₁, hr, hall⟩
    · rw [if_pos (Nat.le_of_not_lt hmany), if_neg hmany]
      exact ⟨h, Same.refl R m, rfl, rfl, nofun⟩

theorem ends_pushStack (h : Building board m₀ R im u k guard us m) (hargs : ∀ s ∈ argv, s.length < pgsize) :
    (pushStack u base (base + pgsize) argv).Ends (Sound board) E m fun r m' => Building board m₀ R im u k guard us m' ∧ Same R m m' ∧ m'.free = m.free ∧
      r = (Stacked.ofArgs base (userByte m us) argv).map (fun y => (y.sp, y.ptrs.length)) ∧
        ∀ y, Stacked.ofArgs base (userByte m us) argv = some y → userByte m' us = y.bytes := by
  unfold pushStack Stacked.ofArgs
  apply (ends_pushArgs (x := ⟨base + pgsize, [], userByte m us⟩) hm hbase hguard hlow h rfl hargs ⟨Nat.le_add_right _ _, Nat.le_refl _⟩).bind
  intro r m₁ hr
  obtain ⟨h₁, hs₁, hfree₁, rfl, hall⟩ := hr
  cases hstr : Stacked.strings base ⟨base + pgsize, [], userByte m us⟩ argv with
  | none => exact ⟨h₁, hs₁, hfree₁, rfl, nofun⟩
  | some x =>
    obtain ⟨hbytes, hsp⟩ := hall x hstr
    have hmany : x.ptrs.length ≤ maxarg := Stacked.few_ptrs hstr (Nat.zero_le _)
    dsimp only [Option.map_some, Option.bind_some]
    apply (ends_push hm hbase hguard h₁ x hbytes hsp.2 ?_ (Nat.mul_pos (Nat.succ_pos _) (by decide))).bind
    · intro r m₂ hr
      obtain ⟨h₂, hs₂, hfree₂, rfl, hbytes₂⟩ := hr
      unfold Stacked.vector
      cases hput : x.put base ((x.ptrs.length + 1) * 8) (wordsOf (x.ptrs ++ [0])) with
      | none => exact ⟨h₂, hs₁.trans hs₂, hfree₂.trans hfree₁, rfl, nofun⟩
      | some y =>
        refine ⟨h₂, hs₁.trans hs₂, hfree₂.trans hfree₁, ?_, fun z hz => ?_⟩
        · show some (y.sp, x.ptrs.length) = some (y.sp, y.ptrs.length)
          rw [(Stacked.put_eq hput).ptrs]
        · cases hz
          exact hbytes₂ _ hput
    · unfold maxarg at hmany
      simp only [pgsize_eq] at hlow
      omega

end Ends
end Farron.Memory
