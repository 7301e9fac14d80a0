import Farron.Memory.Building

/-! What `exec` loads.

A new process's memory is a size and the bytes below it (`Flat`): zero, with the segments of
the file put over it in the order of their headers. `loadAll` makes just that out of pages, and
gives up where `Flat.segments` has no result or memory runs out. -/
namespace Farron.Memory
open Resumption Radix

variable {board : Board} {m₀ m m' : Ram} {R : Multiset (Page × Use)} {E : Stop → Prop} {im : Image} {u k : Page} {us : List Pte}
  {file : Contents} {ph : Proghdr} {va off offset sz n i : Nat}

/-! ### Reading -/

/-- So many bytes of the file can be read from an offset on. -/
def InFile (file : Contents) (off n : Nat) : Prop := n = 0 ∨ (off + n ≤ file.length ∧ off + n < 2 ^ 32)

instance (file : Contents) (off n : Nat) : Decidable (InFile file off n) := inferInstanceAs (Decidable (_ ∨ _))

/-- A read delivers as much as was asked for if the file has it. -/
theorem length_eread (hoff : off < 2 ^ 32) (hn : n < 2 ^ 32) (hpos : 0 < n) :
    (eread file off n).length = n ↔ off + n ≤ file.length ∧ off + n < 2 ^ 32 := by
  unfold eread
  by_cases hout : off > file.length ∨ u32 (off + n) < off
  · rw [if_pos hout, List.length_nil]
    unfold u32 at hout
    omega
  · rw [if_neg hout]
    dsimp only
    rw [List.length_take, List.length_drop]
    unfold u32 at hout ⊢
    split <;> omega

theorem inFile_iff (hoff : off < 2 ^ 32) (hn : n < 2 ^ 32) (hpos : 0 < n) : InFile file off n ↔ (eread file off n).length = n := by
  rw [length_eread hoff hn hpos]
  unfold InFile
  omega

theorem length_eread_le (file : Contents) (hoff : off < 2 ^ 32) (hn : n < 2 ^ 32) : (eread file off n).length ≤ n := by
  unfold eread
  by_cases hout : off > file.length ∨ u32 (off + n) < off
  · rw [if_pos hout]
    exact Nat.zero_le n
  · rw [if_neg hout]
    dsimp only
    rw [List.length_take, List.length_drop]
    unfold u32 at hout ⊢
    split <;> omega

theorem bytesOf_eread (hi : i < (eread file off n).length) : bytesOf (eread file off n) i = bytesOf file (off + i) := by
  revert hi
  unfold eread bytesOf
  split
  · intro hi
    exact absurd hi (Nat.not_lt_zero i)
  · dsimp only
    intro hi
    rw [List.length_take] at hi
    rw [List.getD_eq_getElem?_getD, List.getElem?_take, if_pos (by omega), List.getElem?_drop, ← List.getD_eq_getElem?_getD]

/-! ### Headers -/

theorem word16_congr {b b' : Bytes} {o : Nat} (h : ∀ i, i < 2 → b (o + i) = b' (o + i)) : word16 b o = word16 b' o := by
  have h0 : b o = b' o := h 0 (by omega)
  simp only [word16, h0, h 1 (by omega)]

theorem word64_congr {b b' : Bytes} {o : Nat} (h : ∀ i, i < 8 → b (o + i) = b' (o + i)) : word64 b o = word64 b' o := by
  have hlo : word32 b o = word32 b' o := word32_congr fun i hi => h i (by omega)
  have hhi : word32 b (o + 4) = word32 b' (o + 4) := word32_congr fun i hi => by
    rw [Nat.add_assoc]
    exact h (4 + i) (by omega)
  rw [word64, word64, hlo, hhi]

theorem Elfhdr.of_congr {b b' : Bytes} (h : ∀ i, i < elfhdrSz → b i = b' i) : Elfhdr.of b = Elfhdr.of b' := by
  have hsz : elfhdrSz = 64 := rfl
  unfold Elfhdr.of
  rw [word32_congr fun i hi => h (0 + i) (by omega), word64_congr fun i hi => h (24 + i) (by omega),
    word64_congr fun i hi => h (32 + i) (by omega), word16_congr fun i hi => h (56 + i) (by omega)]

theorem Proghdr.of_congr {b b' : Bytes} (h : ∀ i, i < proghdrSz → b i = b' i) : Proghdr.of b = Proghdr.of b' := by
  have hsz : proghdrSz = 56 := rfl
  unfold Proghdr.of
  rw [word32_congr fun i hi => h (0 + i) (by omega), word64_congr fun i hi => h (8 + i) (by omega),
    word64_congr fun i hi => h (16 + i) (by omega), word64_congr fun i hi => h (32 + i) (by omega),
    word64_congr fun i hi => h (40 + i) (by omega)]

/-- The program header at an offset of the file. -/
def phdrAt (file : Contents) (off : Nat) : Proghdr := Proghdr.of fun i => bytesOf file (off + i)

/-- A header that is read in full is that of the file. -/
theorem phdr_eread (hfull : (eread file off proghdrSz).length = proghdrSz) : Proghdr.of (bytesOf (eread file off proghdrSz)) = phdrAt file off :=
  Proghdr.of_congr fun i hi => bytesOf_eread (by rw [hfull]; exact hi)

theorem elfhdr_eread (hfull : (eread file 0 elfhdrSz).length = elfhdrSz) : Elfhdr.of (bytesOf (eread file 0 elfhdrSz)) = Elfhdr.of (bytesOf file) :=
  Elfhdr.of_congr fun i hi => by rw [bytesOf_eread (by rw [hfull]; exact hi), Nat.zero_add]

/-! ### The memory of a new process -/

/-- A size, and the bytes below it. -/
structure Flat where
  size : Nat
  bytes : Nat → Byte

/-- A segment lies in memory and in the file as it should. -/
def Proghdr.Fine (file : Contents) (ph : Proghdr) : Prop :=
  ph.filesz ≤ ph.memsz ∧ ph.vaddr + ph.memsz < 2 ^ 64 ∧ ph.vaddr % pgsize = 0 ∧ InFile file (u32 ph.off) (u32 ph.filesz)

instance (file : Contents) (ph : Proghdr) : Decidable (ph.Fine file) := inferInstanceAs (Decidable (_ ∧ _))

namespace Flat

/-- The bytes of a segment, put over what is there. -/
def load (file : Contents) (x : Flat) (ph : Proghdr) : Flat where
  size := max x.size (ph.vaddr + ph.memsz)
  bytes := overwrite ph.vaddr (u32 ph.filesz) (fun i => bytesOf file (u32 ph.off + i)) x.bytes

/-- One segment; there is no process without memory. -/
def segment (file : Contents) (x : Flat) (ph : Proghdr) : Option Flat :=
  if ph.type ≠ elfProgLoad then some x
  else if ph.Fine file ∧ (x.load file ph).size ≠ 0 then some (x.load file ph)
  else none

/-- The segments that `n` headers from an offset on describe. -/
def segments (file : Contents) : Nat → Nat → Flat → Option Flat
  | 0, _, x => some x
  | n + 1, off, x =>
    if InFile file off proghdrSz then (x.segment file (phdrAt file off)).bind (segments file n (off + proghdrSz))
    else none

/-- Nothing is loaded. -/
def empty : Flat := ⟨0, fun _ => 0⟩

/-- The memory that a file describes. -/
def ofFile (file : Contents) : Option Flat :=
  let elf := Elfhdr.of (bytesOf file)
  if InFile file 0 elfhdrSz ∧ elf.magic = elfMagic then segments file elf.phnum (u32 elf.phoff) empty else none

end Flat

/-! ### One segment -/

theorem overwrite_zero (o : Nat) (f b : Nat → Byte) : overwrite o 0 f b = b := by
  funext x
  exact overwrite_out _ _ (by omega)

/-- What was written to the user, as bytes at addresses. -/
theorem userByte_wrote {len : Nat} {src : Nat → Byte} (hw : Wrote us va len src m m') (hin : va + len ≤ us.length * pgsize) :
    userByte m' us = overwrite va len src (userByte m us) := by
  funext x
  have hsplit : x / pgsize * pgsize + x % pgsize = x := Nat.div_add_mod' x pgsize
  have hmod : x % pgsize < pgsize := Nat.mod_lt _ (by decide)
  unfold userByte
  by_cases hx : va ≤ x ∧ x < va + len
  · have hlt : x / pgsize < us.length := Nat.div_lt_of_lt_mul (by rw [Nat.mul_comm]; omega)
    rw [overwrite_in _ _ hx.1 hx.2, List.getElem?_eq_getElem hlt]
    show m'.byte us[x / pgsize].page _ = _
    rw [hw.bytes _ _ _ (List.getElem?_eq_getElem hlt), hsplit, if_pos ⟨hmod, hx⟩]
  · rw [overwrite_out _ _ (by omega)]
    cases he : us[x / pgsize]? with
    | none => rfl
    | some e =>
      show m'.byte e.page _ = m.byte e.page _
      rw [hw.bytes _ _ _ he, hsplit, if_neg fun hc => hx hc.2]

/-- How many bytes of a segment are read from its byte `i` on, up to the end of the page. -/
def pageful (sz i : Nat) : Nat := if sz - i < pgsize then sz - i else pgsize

theorem pageful_cases (sz i : Nat) : (pageful sz i = sz - i ∧ sz - i < pgsize) ∨ (pageful sz i = pgsize ∧ pgsize ≤ sz - i) := by
  unfold pageful
  by_cases hc : sz - i < pgsize
  · exact .inl ⟨if_pos hc, hc⟩
  · exact .inr ⟨if_neg hc, Nat.le_of_not_lt hc⟩

theorem pageful_lt (sz i : Nat) : pageful sz i < 2 ^ 32 := by
  have hpage : pgsize < 2 ^ 32 := by decide
  obtain ⟨hn, hlt⟩ | ⟨hn, -⟩ := pageful_cases sz i
  · rw [hn]
    exact hlt.trans hpage
  · rw [hn]
    exact hpage

/-- The file is put over the memory page by page. -/
theorem overwrite_pageful (hfull : (eread file off (pageful sz i)).length = pageful sz i) (b : Nat → Byte) :
    overwrite (va + pgsize) (sz - (i + pgsize)) (fun j => bytesOf file (off + pgsize + j))
      (overwrite va (pageful sz i) (bytesOf (eread file off (pageful sz i))) b) =
      overwrite va (sz - i) (fun j => bytesOf file (off + j)) b := by
  have hread : ∀ j, j < pageful sz i → bytesOf (eread file off (pageful sz i)) j = bytesOf file (off + j) :=
    fun j hj => bytesOf_eread (by rw [hfull]; exact hj)
  rw [overwrite_congr va (pageful sz i) b hread]
  obtain ⟨hn, hlt⟩ | ⟨hn, hge⟩ := pageful_cases sz i
  · rw [hn, show sz - (i + pgsize) = 0 by omega, overwrite_zero]
  · rw [hn, overwrite_append, show pgsize + (sz - (i + pgsize)) = sz - i by omega]
    apply overwrite_congr
    intro j hj
    by_cases hjn : j < pgsize
    · rw [if_pos hjn]
    · have hat : off + pgsize + (j - pgsize) = off + j := by omega
      rw [if_neg hjn]
      exact congrArg (bytesOf file) hat

/-- What reading the rest of a segment comes to, from its byte `i` on: it is in memory, or not all in the file. -/
def Reads (board : Board) (m₀ : Ram) (R : Multiset (Page × Use)) (im : Image) (u k : Page) (us : List Pte) (file : Contents)
    (va offset sz i : Nat) (m : Ram) (r : Int) (m' : Ram) : Prop :=
  Building board m₀ R im u k none us m' ∧ Same R m m' ∧ m'.free = m.free ∧
    ((r = 0 ∧ InFile file (offset + i) (sz - i) ∧
        userByte m' us = overwrite (va + i) (sz - i) (fun j => bytesOf file (offset + i + j)) (userByte m us)) ∨
      (r = -1 ∧ ¬ InFile file (offset + i) (sz - i)))

namespace Reads
variable {m'' : Ram} {r : Int}

theorem last (h : Building board m₀ R im u k none us m) (hge : sz ≤ i) : Reads board m₀ R im u k us file va offset sz i m 0 m := by
  have hzero : sz - i = 0 := by omega
  unfold Reads
  rw [hzero, overwrite_zero]
  exact ⟨h, Same.refl R m, rfl, .inl ⟨rfl, .inl rfl, rfl⟩⟩

/-- The file ends in this page. -/
theorem short (h : Building board m₀ R im u k none us m') (hs : Same R m m') (hfree : m'.free = m.free) (hlt : i < sz)
    (hoff : offset + i < 2 ^ 32) (hshort : (eread file (offset + i) (pageful sz i)).length ≠ pageful sz i) :
    Reads board m₀ R im u k us file va offset sz i m (-1) m' := by
  have hpage : pgsize = 4096 := pgsize_eq
  have hcases := pageful_cases sz i
  refine ⟨h, hs, hfree, .inr ⟨rfl, fun hfile => hshort ?_⟩⟩
  unfold InFile at hfile
  exact (length_eread hoff (pageful_lt sz i) (by omega)).mpr (by omega)

/-- One page more was read first. -/
theorem cons (h : Reads board m₀ R im u k us file va offset sz (i + pgsize) m' r m'') (hs : Same R m m')
    (hw : Wrote us (va + i) (eread file (offset + i) (pageful sz i)).length (bytesOf (eread file (offset + i) (pageful sz i))) m m')
    (hin : va + sz ≤ us.length * pgsize) (hlt : i < sz) (hoff : offset + i < 2 ^ 32)
    (hfull : (eread file (offset + i) (pageful sz i)).length = pageful sz i) :
    Reads board m₀ R im u k us file va offset sz i m r m'' := by
  have hpage : pgsize = 4096 := pgsize_eq
  have hcases := pageful_cases sz i
  obtain ⟨hfile, hmax⟩ := (length_eread hoff (pageful_lt sz i) (by omega)).mp hfull
  have hiff : InFile file (offset + (i + pgsize)) (sz - (i + pgsize)) ↔ InFile file (offset + i) (sz - i) := by
    unfold InFile
    omega
  obtain ⟨hb, hs', hfree, hr⟩ := h
  refine ⟨hb, hs.trans hs', hfree.trans hw.free, hr.imp (fun hgood => ⟨hgood.1, hiff.mp hgood.2.1, ?_⟩) fun hbad =>
    ⟨hbad.1, fun hfile => hbad.2 (hiff.mpr hfile)⟩⟩
  rw [hgood.2.2, userByte_wrote hw (by omega), hfull, ← Nat.add_assoc, ← Nat.add_assoc, overwrite_pageful hfull]

end Reads

section Ends
variable (hm : Stocked board m₀)
include hm

/-- The page that a byte of a segment lies in. -/
theorem ends_walkaddr_segment (h : Building board m₀ R im u k none us m) (hva : va % pgsize = 0) (hi : i % pgsize = 0)
    (hin : va + sz ≤ us.length * pgsize) (hlt : i < sz) : ∃ e, us[(va + i) / pgsize]? = some e ∧
      (walkaddr u (u64 (va + i))).Ends (Sound board) E m fun r m' => m' = m ∧ r = some e.page := by
  have hfew := h.few hm
  have hv : (va + i) / pgsize < us.length := by
    apply Nat.div_lt_of_lt_mul
    rw [Nat.mul_comm]
    omega
  have he := List.getElem?_eq_getElem hv
  have huser : isUser us[(va + i) / pgsize].flags = true := by
    rw [h.flags _ _ he, if_neg (Option.some_ne_none _).symm]
    rfl
  have hu64 : u64 (va + i) = pgrounddown (va + i) := by
    simp only [pgsize_eq] at hva hi hin
    simp only [u64, pgrounddown, pgsize_eq]
    omega
  refine ⟨_, he, ?_⟩
  rw [hu64]
  refine ((h.mapping hm).ends_walkaddr (sound_allows hm) he).imp fun r m' hr => ?_
  obtain ⟨rfl, rfl⟩ := hr
  exact ⟨rfl, if_pos huser⟩

/-- The rest of a segment, from a page boundary on. -/
theorem ends_loadLoop (hva : va % pgsize = 0) (hin : va + sz ≤ us.length * pgsize) (rounds : Nat)
    (h : Building board m₀ R im u k none us m) (hi : i % pgsize = 0) (hnext : offset + i < 2 ^ 32 ∨ sz ≤ i) (hr : sz ≤ i + rounds * pgsize) :
    (loadLoop u va file offset sz (rounds + 1) i).Ends (Sound board) E m (Reads board m₀ R im u k us file va offset sz i m) := by
  have hpage : pgsize = 4096 := pgsize_eq
  induction rounds generalizing m i with
  | zero =>
    unfold loadLoop
    rw [if_neg (by omega)]
    exact .last h (by omega)
  | succ rounds ih =>
    unfold loadLoop
    by_cases hlt : i < sz
    · have hoff' : offset + i < 2 ^ 32 := by omega
      have hu32 : u32 (offset + i) = offset + i := Nat.mod_eq_of_lt hoff'
      have hfew := h.few hm
      have hcases := pageful_cases sz i
      have hzero : 0 = (va + i) % pgsize := by
        simp only [pgsize_eq] at hva hi ⊢
        omega
      have hspan : i + pgsize < 2 ^ 32 := by
        simp only [pgsize_eq] at hin ⊢
        omega
      rw [if_pos hlt]
      obtain ⟨e, he, hwalk⟩ := ends_walkaddr_segment (E := E) hm h hva hi hin hlt
      apply hwalk.bind
      intro r m' hr'
      obtain ⟨rfl, rfl⟩ := hr'
      show (store e.page 0 (eread file (u32 (offset + i)) (pageful sz i)).length _ >>= fun _ =>
        if (eread file (u32 (offset + i)) (pageful sz i)).length ≠ pageful sz i then pure (-1) else _).Ends _ _ _ _
      rw [hu32]
      have hle := length_eread_le file hoff' (pageful_lt sz i)
      have hwrote : Wrote us (va + i) (eread file (offset + i) (pageful sz i)).length
          (bytesOf (eread file (offset + i) (pageful sz i))) m' _ :=
        Wrote.page (h.mapping hm).nodup he hzero (by omega)
      obtain ⟨h₁, hs₁⟩ := h.wrote hm hwrote
      apply Prog.Ends.change trivial
      by_cases hfull : (eread file (offset + i) (pageful sz i)).length = pageful sz i
      · have hstep : u32 (i + pgsize) = i + pgsize := Nat.mod_eq_of_lt hspan
        have hread := (length_eread hoff' (pageful_lt sz i) (by omega)).mp hfull
        rw [if_neg (not_not.mpr hfull), hstep]
        have hi' : (i + pgsize) % pgsize = 0 := by rw [Nat.add_mod_right, hi]
        have hr' : sz ≤ i + pgsize + rounds * pgsize := by
          simp only [pgsize_eq] at hr ⊢
          omega
        exact (ih h₁ hi' (by omega) hr').imp fun r m'' hr => hr.cons hs₁ hwrote hin hlt hoff' hfull
      · rw [if_pos hfull]
        exact .short h₁ hs₁ hwrote.free hlt hoff' hfull
    · rw [if_neg hlt]
      exact .last h (by omega)

theorem ends_loadseg (h : Building board m₀ R im u k none us m) (hva : va % pgsize = 0) (hin : va + sz ≤ us.length * pgsize)
    (hoff : offset < 2 ^ 32) :
    (loadseg u va file offset sz).Ends (Sound board) E m fun r m' => Building board m₀ R im u k none us m' ∧ Same R m m' ∧ m'.free = m.free ∧
      ((r = 0 ∧ InFile file offset sz ∧ userByte m' us = overwrite va sz (fun i => bytesOf file (offset + i)) (userByte m us)) ∨
        (r = -1 ∧ ¬ InFile file offset sz)) := by
  have hloop : (loadLoop u va file offset sz (sz / pgsize + 1 + 1) 0).Ends (Sound board) E m _ :=
    ends_loadLoop hm hva hin (sz / pgsize + 1) h (Nat.zero_mod _) (.inl hoff) (by
      simp only [pgsize_eq]
      omega)
  unfold Reads at hloop
  simp only [Nat.add_zero, Nat.sub_zero] at hloop
  unfold loadseg
  rw [if_neg (by rw [hva]; exact fun hc => hc rfl)]
  exact hloop

end Ends

/-! ### All segments -/

/-- The pages are the memory `x`. -/
structure Standing (board : Board) (m₀ : Ram) (R : Multiset (Page × Use)) (im : Image) (u k : Page) (guard : Option Nat) (us : List Pte)
    (x : Flat) (m : Ram) : Prop where
  building : Building board m₀ R im u k guard us m
  size : npages x.size = us.length
  bytes : userByte m us = x.bytes

/-- More segments only need more memory. -/
theorem Flat.size_le {x x' : Flat} (h : x.segment file ph = some x') : x.size ≤ x'.size := by
  unfold Flat.segment at h
  split at h
  · cases h
    exact Nat.le_refl _
  · split at h
    · cases h
      exact Nat.le_max_left _ _
    · cases h

theorem Flat.size_le_segments {x x' : Flat} (h : Flat.segments file n off x = some x') : x.size ≤ x'.size := by
  induction n generalizing x off with
  | zero =>
    cases h
    exact Nat.le_refl _
  | succ n ih =>
    unfold Flat.segments at h
    split at h
    · obtain ⟨x₁, h₁, h₂⟩ := Option.bind_eq_some_iff.mp h
      exact (Flat.size_le h₁).trans (ih h₂)
    · cases h

theorem npages_mono {a b : Nat} (h : a ≤ b) : npages a ≤ npages b := by
  unfold npages
  omega

/-- What `loadAll` comes to: the memory that the headers describe, if they do and there are enough pages. -/
def Loads (board : Board) (m₀ : Ram) (R : Multiset (Page × Use)) (im : Image) (u k : Page) (us : List Pte) (o : Option Flat)
    (m : Ram) (r : Bool × Nat) (m' : Ram) : Prop :=
  Same R m m' ∧ ∃ us', npages r.2 = us'.length ∧ Building board m₀ R im u k none us' m' ∧
    ((r.1 = true ∧ ∃ x, o = some x ∧ r.2 = x.size ∧ Standing board m₀ R im u k none us' x m' ∧
        m.free.length + 5 * us.length ≤ m'.free.length + 5 * us'.length) ∨
      (r.1 = false ∧ ∀ x, o = some x → m.free.length + 5 * us.length < 5 * npages x.size))

namespace Loads
variable {x : Flat} {o : Option Flat} {r : Bool × Nat} {us' : List Pte} {m₁ : Ram}

/-- The file does not describe a memory. -/
theorem wrong (h : Building board m₀ R im u k none us' m') (hs : Same R m m') (hsz : npages sz = us'.length) :
    Loads board m₀ R im u k us none m (false, sz) m' :=
  ⟨hs, us', hsz, h, .inr ⟨rfl, fun _ hx => nomatch hx⟩⟩

/-- Something was loaded first. -/
theorem after (hs : Same R m m₁) (hfree : m.free.length + 5 * us.length ≤ m₁.free.length + 5 * us'.length)
    (h : Loads board m₀ R im u k us' o m₁ r m') : Loads board m₀ R im u k us o m r m' := by
  obtain ⟨hs', us'', hsz, hb, hr⟩ := h
  refine ⟨hs.trans hs', us'', hsz, hb, ?_⟩
  obtain ⟨htrue, x, hx, hsize, hstanding, hspent⟩ | ⟨hfalse, hshort⟩ := hr
  · exact .inl ⟨htrue, x, hx, hsize, hstanding, hfree.trans hspent⟩
  · exact .inr ⟨hfalse, fun x hx => Nat.lt_of_le_of_lt hfree (hshort x hx)⟩

end Loads

section Ends
variable (hm : Stocked board m₀)
include hm

theorem ends_loadAll (phnum : Nat) {x : Flat} (h : Standing board m₀ R im u k none us x m) (hoff : off < 2 ^ 32) :
    (loadAll board u k file phnum off x.size).Ends (Sound board) E m (Loads board m₀ R im u k us (Flat.segments file phnum off x) m) := by
  induction phnum generalizing x us m off with
  | zero =>
    exact ⟨Same.refl R m, us, h.size, h.building, .inl ⟨rfl, x, rfl, rfl, h, Nat.le_refl _⟩⟩
  | succ phnum ih =>
    unfold loadAll Flat.segments
    have hread : InFile file off proghdrSz ↔ (eread file off proghdrSz).length = proghdrSz := inFile_iff hoff (by decide) (by decide)
    by_cases hlen : (eread file off proghdrSz).length = proghdrSz
    swap
    · rw [if_pos hlen, if_neg fun hc => hlen (hread.mp hc)]
      exact .wrong h.building (Same.refl R m) h.size
    rw [if_neg fun hc => hc hlen, if_pos (hread.mpr hlen), phdr_eread hlen]
    have hnext : u32 (off + proghdrSz) = off + proghdrSz := by
      have := (length_eread hoff (by decide : proghdrSz < 2 ^ 32) (by decide)).mp hlen
      exact Nat.mod_eq_of_lt this.2
    have hoff' : off + proghdrSz < 2 ^ 32 := ((length_eread hoff (by decide : proghdrSz < 2 ^ 32) (by decide)).mp hlen).2
    rw [hnext]
    have hvaddr : (phdrAt file off).vaddr < 2 ^ 64 := word64_lt _ _
    have hmemsz : (phdrAt file off).memsz < 2 ^ 64 := word64_lt _ _
    generalize phdrAt file off = ph at hvaddr hmemsz ⊢
    unfold Flat.segment
    by_cases htype : ph.type = elfProgLoad
    swap
    · rw [if_pos htype, if_pos htype, Option.bind_some]
      exact ih h hoff'
    have hload : ¬ ph.type ≠ elfProgLoad := fun hc => hc htype
    simp only [if_neg hload]
    -- what the headers must not say
    have hwrong : ∀ {m' : Ram} {us' : List Pte} {sz : Nat}, ¬ (ph.Fine file ∧ (x.load file ph).size ≠ 0) →
        Building board m₀ R im u k none us' m' → Same R m m' → npages sz = us'.length →
        Loads board m₀ R im u k us ((if ph.Fine file ∧ (x.load file ph).size ≠ 0 then some (x.load file ph) else none).bind
          (Flat.segments file phnum (off + proghdrSz))) m (false, sz) m' := by
      intro m' us' sz hnot hb hs hsz
      rw [if_neg hnot, Option.bind_none]
      exact .wrong hb hs hsz
    by_cases hfilesz : ph.memsz < ph.filesz
    · rw [if_pos hfilesz]
      exact hwrong (fun hc => absurd hc.1.1 (by omega)) h.building (Same.refl R m) h.size
    rw [if_neg hfilesz]
    by_cases hsum : u64 (ph.vaddr + ph.memsz) < ph.vaddr
    · rw [if_pos hsum]
      refine hwrong (fun hc => ?_) h.building (Same.refl R m) h.size
      rw [u64_of_lt hc.1.2.1] at hsum
      omega
    have hsum' : ph.vaddr + ph.memsz < 2 ^ 64 := by
      unfold u64 at hsum
      omega
    rw [if_neg hsum, u64_of_lt hsum']
    apply (h.building.ends_grow hm h.size).bind
    intro r m₁ hr
    obtain ⟨hs₁, ⟨rfl, hb₁, hshort⟩ | ⟨rfl, us₁, hsz₁, hb₁, hbytes₁, hspent⟩⟩ := hr
    · rw [if_pos rfl]
      refine ⟨hs₁, us, h.size, hb₁, .inr ⟨rfl, fun x' hx' => ?_⟩⟩
      obtain ⟨x₁, hx₁, hrest⟩ := Option.bind_eq_some_iff.mp hx'
      have hle := Flat.size_le_segments hrest
      split at hx₁
      · cases hx₁
        have hmono : npages (ph.vaddr + ph.memsz) ≤ npages x'.size := npages_mono ((Nat.le_max_right _ _).trans hle)
        omega
      · cases hx₁
    · by_cases hzero : max x.size (ph.vaddr + ph.memsz) = 0
      · rw [if_pos hzero]
        refine hwrong (fun hc => hc.2 hzero) hb₁ hs₁ ?_
        rw [← hsz₁, hzero, show x.size = 0 by omega]
      rw [if_neg hzero]
      by_cases halign : ph.vaddr % pgsize = 0
      swap
      · rw [if_pos halign]
        exact hwrong (fun hc => halign hc.1.2.2.1) hb₁ hs₁ hsz₁
      rw [if_neg fun hc => hc halign]
      have hu32 : u32 ph.filesz ≤ ph.filesz := Nat.mod_le _ _
      have hin : ph.vaddr + u32 ph.filesz ≤ us₁.length * pgsize := by
        rw [← hsz₁]
        unfold npages
        simp only [pgsize_eq]
        omega
      apply (ends_loadseg hm hb₁ halign hin (u32_lt _)).bind
      intro r m₂ hr
      obtain ⟨hb₂, hs₂, hfree₂, ⟨rfl, hfile, hbytes₂⟩ | ⟨rfl, hout⟩⟩ := hr
      · have hfine : ph.Fine file ∧ (x.load file ph).size ≠ 0 := ⟨⟨by omega, hsum', halign, hfile⟩, hzero⟩
        rw [if_neg (by decide), if_pos hfine, Option.bind_some]
        have hstanding : Standing board m₀ R im u k none us₁ (x.load file ph) m₂ := by
          refine ⟨hb₂, hsz₁, ?_⟩
          rw [hbytes₂, hbytes₁, h.bytes]
          rfl
        refine (ih hstanding hoff').imp fun r m' hr => hr.after (hs₁.trans hs₂) ?_
        rw [hfree₂]
        exact hspent
      · rw [if_pos (by decide)]
        exact hwrong (fun hc => hout hc.1.2.2.2) hb₂ (hs₁.trans hs₂) hsz₁

end Ends
end Farron.Memory
