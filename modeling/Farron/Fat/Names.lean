import Farron.Fat.Layout
import Mathlib.Data.List.DropRight

/-! Names and directory records.

A C string is the list of its bytes before the NUL. A directory record is 32 bytes:
a short-name record holds a file's attributes, first cluster and size, and the
long-name records before it hold its name, 13 characters each, the last part
first. -/
namespace Farron

abbrev CString := List Byte

/-- A record, or any bytes numbered from 0. -/
abbrev Bytes := Nat → Byte

/-! ### Strings -/

/-- `strncmp(p, q, n) == 0`. -/
def strncmpEq (n : Nat) (p q : CString) : Bool := p.take n == q.take n

/-- The string at the start of an array of `n` bytes. -/
def cstr (n : Nat) (buf : Bytes) : CString := ((List.range n).map buf).takeWhile (· != 0)

/-- A NUL in the array ends its string. -/
theorem length_cstr_lt {n o : Nat} {buf : Bytes} (ho : o < n) (h : buf o = 0) : (cstr n buf).length < n := by
  have hpre : cstr n buf <+: (List.range n).map buf := List.takeWhile_prefix _
  refine lt_of_le_of_ne (by simpa using hpre.length_le) fun he => ?_
  have hall : cstr n buf = (List.range n).map buf := hpre.eq_of_length (by simpa using he)
  have hmem : (0 : Byte) ∈ cstr n buf := by
    rw [hall]
    exact List.mem_map.mpr ⟨o, List.mem_range.mpr ho, h⟩
  simpa using List.mem_takeWhile_imp hmem

/-- The bytes up to the first NUL make the string. -/
theorem cstr_congr {n : Nat} {buf buf' : Bytes}
    (h : ∀ o, o < n → (∀ i, i < o → buf' i ≠ 0) → buf o = buf' o) : cstr n buf = cstr n buf' := by
  induction n generalizing buf buf' with
  | zero => rfl
  | succ n ih =>
    have h0 : buf 0 = buf' 0 := h 0 (by omega) fun i hi => by omega
    have htail : buf' 0 ≠ 0 → cstr n (fun o => buf (o + 1)) = cstr n fun o => buf' (o + 1) := by
      intro hne
      refine ih fun o ho hall => h (o + 1) (by omega) fun i hi => ?_
      cases i with
      | zero => exact hne
      | succ i => exact hall i (by omega)
    unfold cstr at htail ⊢
    rw [List.range_succ_eq_map, List.map_cons, List.map_cons, List.map_map, List.map_map, h0]
    by_cases hz : buf' 0 = 0
    · simp [hz]
    · simp only [List.takeWhile_cons, bne_iff_ne, ne_eq, hz, not_false_eq_true, if_true]
      exact congrArg _ (htail hz)

/-- Zeros behind the array are not part of its string. -/
theorem cstr_of_zeros {n m : Nat} {buf : Bytes} (hm : m ≤ n) (h : ∀ o, m ≤ o → buf o = 0) :
    cstr n buf = cstr m buf := by
  obtain ⟨k, rfl⟩ := Nat.exists_eq_add_of_le hm
  unfold cstr
  rw [List.range_add, List.map_append, List.map_map, List.takeWhile_append]
  split_ifs with hall
  · have hnil : (((List.range k).map (buf ∘ (m + ·))).takeWhile (· != 0)) = [] := by
      cases k with
      | zero => rfl
      | succ k => simp [List.range_succ_eq_map, h m (le_refl _)]
    rw [hnil, List.append_nil]
    exact ((List.takeWhile_prefix _).eq_of_length hall).symm
  · rfl

/-- A string in an array that has room for it. -/
theorem cstr_getD {name : CString} {n : Nat} (hn : name.length ≤ n) :
    cstr n (fun o => name.getD o 0) = name.takeWhile (· != 0) := by
  rw [cstr_of_zeros hn fun o ho => by simp [List.getD, List.getElem?_eq_none ho], cstr]
  congr 1
  refine List.ext_getElem (by simp) fun i hi hi' => ?_
  simp [hi']

def charSpace : Byte := 0x20
def charDot : Byte := 0x2e
def charUnderscore : Byte := 0x5f

/-- The characters that no name may contain. -/
def formatnameIllegal : CString := [0x22, 0x2a, 0x2f, 0x3a, 0x3c, 0x3e, 0x3f, 0x5c, 0x7c]

/-- Spaces and dots at the front and spaces at the end are dropped; `none` if a
character is not allowed. -/
def formatname (name : CString) : Option CString :=
  let name := name.dropWhile fun c => c == charSpace || c == charDot
  if name.any fun c => c < 0x20 || formatnameIllegal.contains c then none
  else some (name.rdropWhile (· == charSpace))

/-- Legal in a long name but not in a short one. -/
def shortnameIllegal : CString := [0x2b, 0x2c, 0x3b, 0x3d, 0x5b, 0x5d]

/-- A character as it goes into a short name. -/
def shortnameChar (c : Byte) : Byte :=
  if 0x61 ≤ c ∧ c ≤ 0x7a then c - 0x20 else if shortnameIllegal.contains c then charUnderscore else c

/-- Whether the pointer `p` of `generate_shortname` is below `name`, now at `pos`; NULL is. -/
def dotBelow (p : Option Nat) (pos : Nat) : Bool := p.all fun q => q < pos

/-- The loop of `generate_shortname` at position `pos` of `name`, with `out` written so
far. `p` is the position of the last dot, or 0 if there is none, until it has been
used. -/
def shortnameLoop (name : CString) : Nat → CString → Nat → Option Nat → CString
  | 0, out, _, _ => out
  | fuel + 1, out, pos, p =>
    if out.length < charShortName ∧ pos < name.length then
      let c := name.getD pos 0
      if out.length = 8 ∧ p.isSome then
        if p.getD 0 + 1 < pos + 1 then out else shortnameLoop name fuel out (p.getD 0 + 1) none
      else if c = charSpace then shortnameLoop name fuel out (pos + 1) p
      else if c = charDot then
        if dotBelow p (pos + 1) then
          shortnameLoop name fuel (out ++ List.replicate (8 - out.length) charSpace) (pos + 1) none
        else shortnameLoop name fuel out (pos + 1) p
      else shortnameLoop name fuel (out ++ [shortnameChar c]) (pos + 1) p
    else out

/-- The position of the last dot, 0 if there is none. -/
def lastDot (name : CString) : Nat :=
  ((List.range name.length).reverse.find? fun j => name[j]? == some charDot).getD 0

/-- The 11 bytes of the short name generated for a name. -/
def generateShortname (name : CString) : CString :=
  let out := shortnameLoop name (name.length + 1) [] 0 (some (lastDot name))
  out ++ List.replicate (charShortName - out.length) charSpace

def calChecksum (shortname : CString) : Byte :=
  shortname.foldl (fun sum c => (if sum &&& 1 = 1 then 0x80 else 0 : Byte) + (sum >>> 1) + c) 0

/-! ### Records, as `emake` writes them -/

/-- How many long-name records a name takes. -/
def longCount (name : CString) : Nat := (name.length + charLongName - 1) / charLongName

/-- Character `k` of a long name on disk, low byte first: the name, a NUL, padding. -/
def longChar (name : CString) (k : Nat) : Byte × Byte :=
  if k < name.length then (name.getD k 0, 0) else if k = name.length then (0, 0) else (0xff, 0xff)

/-- The offset in a record of character `j` of its 13. -/
def longCharOff (j : Nat) : Nat := if j < 5 then 1 + 2 * j else if j < 11 then 14 + 2 * (j - 5) else 28 + 2 * (j - 11)

/-- Long-name record `i`, counted from 1. -/
def longRecord (name : CString) (i : Nat) (checksum : Byte) : Bytes := fun o =>
  let base := (i - 1) * charLongName
  if o = 0 then UInt8.ofNat i ||| if i = longCount name then lastLongEntry else 0
  else if o = 11 then attrLongName
  else if o = 13 then checksum
  else match (List.range charLongName).find? fun j => o == longCharOff j || o == longCharOff j + 1 with
    | some j => if o = longCharOff j then (longChar name (base + j)).1 else (longChar name (base + j)).2
    | none => 0

/-- A short-name record. -/
def shortRecord (name : CString) (attr : Byte) (firstClus fileSize : Nat) : Bytes := fun o =>
  if o < 11 then name.getD o 0
  else if o = 11 then attr
  else if o = 20 ∨ o = 21 then wordByte firstClus (o - 18)
  else if o = 26 ∨ o = 27 then wordByte firstClus (o - 26)
  else if 28 ≤ o ∧ o < 32 then wordByte fileSize (o - 28)
  else 0

/-- The names of the records that `emake` writes at offsets 0 and 32. -/
def dotName : CString := charDot :: List.replicate 10 charSpace
def dotDotName : CString := charDot :: charDot :: List.replicate 9 charSpace

/-! ### Records, as `enext` reads them -/

/-- `first_clus` and `file_size` of a short-name record. -/
def recordClus (de : Bytes) : Nat :=
  (de 26).toNat + 256 * (de 27).toNat + 65536 * (de 20).toNat + 16777216 * (de 21).toNat

def recordSize (de : Bytes) : Nat := word32 de 28

/-- Characters of `src` up to a NUL go to `dst`, then zeros, one fewer than would fill
the rest. -/
def snstr (dst len : Nat) (src : Nat → Byte × Byte) (buf : Bytes) : Bytes := fun o =>
  let n := ((List.range len).find? fun k => src k == (0, 0)).getD len
  if dst ≤ o ∧ o < dst + n then (src (o - dst)).1
  else if dst + n ≤ o ∧ o + 1 < dst + len then 0
  else buf o

/-- A character of a record. -/
def recordChar (de : Bytes) (j : Nat) : Byte × Byte := (de (longCharOff j), de (longCharOff j + 1))

/-- The string in the name field of a short-name record, with its dot. -/
def shortString (de : Bytes) : CString :=
  let stem := ((List.range 8).map de).takeWhile (· != charSpace)
  if de 8 != charSpace then
    stem ++ charDot :: ((List.range 3).map fun i => de (8 + i)).takeWhile (· != charSpace)
  else stem

/-- `read_entry_name` of a record into the name array, from `base` on. -/
def readEntryName (base : Nat) (de : Bytes) (buf : Bytes) : Bytes :=
  if de 11 = attrLongName then
    snstr (base + 11) 2 (fun k => recordChar de (11 + k)) <|
      snstr (base + 5) 6 (fun k => recordChar de (5 + k)) <|
        snstr base 5 (recordChar de) buf
  else fun o => if base ≤ o ∧ o < base + 13 then (shortString de).getD (o - base) 0 else buf o

theorem snstr_out {dst len o : Nat} (src : Nat → Byte × Byte) (buf : Bytes) (h : o < dst ∨ dst + len ≤ o) :
    snstr dst len src buf o = buf o := by
  have hn : ((List.range len).find? fun k => src k == (0, 0)).getD len ≤ len := by
    cases hf : (List.range len).find? fun k => src k == (0, 0) with
    | none => exact le_refl _
    | some k => exact (List.mem_range.mp (List.mem_of_find?_eq_some hf)).le
  unfold snstr
  rw [if_neg (by omega), if_neg (by omega)]

/-- Up to the first NUL, `snstr` copies the low bytes. -/
theorem snstr_in {dst len k : Nat} {src : Nat → Byte × Byte} {buf : Bytes} (hk : k < len)
    (hbuf : buf (dst + k) = 0) (hsrc : ∀ i, i < k → (src i).1 ≠ 0) :
    snstr dst len src buf (dst + k) = (src k).1 := by
  have hout : ∀ n, ((List.range len).find? fun i => src i == (0, 0)).getD len = n → k < n ∨ (src k).1 = 0 := by
    intro n hn
    cases hf : (List.range len).find? fun i => src i == (0, 0) with
    | none => exact .inl (by simpa [← hn, hf] using hk)
    | some m =>
      obtain rfl : m = n := by simpa [hf] using hn
      have hm : src m = (0, 0) := by simpa using List.find?_some hf
      rcases Nat.lt_trichotomy k m with hlt | rfl | hgt
      · exact .inl hlt
      · exact .inr (by rw [hm])
      · exact absurd (by rw [hm]) (hsrc m hgt)
  unfold snstr
  obtain ⟨n, hn⟩ : ∃ n, ((List.range len).find? fun i => src i == (0, 0)).getD len = n := ⟨_, rfl⟩
  simp only [hn, Nat.add_sub_cancel_left]
  rcases hout n hn with hlt | hz
  · rw [if_pos (by omega)]
  · rw [hz, hbuf]
    split_ifs <;> rfl

/-- The low byte of a character of a record. -/
def lowChar (de : Bytes) (j : Nat) : Byte := (recordChar de j).1

/-- Up to the first NUL, a long-name record puts the low bytes of its characters into an
array that was zero. -/
theorem readEntryName_in {base j : Nat} {de buf : Bytes} (hl : de 11 = attrLongName) (hj : j < 13)
    (hbuf : ∀ i, i < 13 → buf (base + i) = 0) (hlow : ∀ i, i < j → lowChar de i ≠ 0) :
    readEntryName base de buf (base + j) = lowChar de j := by
  unfold readEntryName
  rw [if_pos hl]
  rcases Nat.lt_or_ge j 5 with h5 | h5
  · rw [snstr_out _ _ (by omega), snstr_out _ _ (by omega)]
    exact snstr_in h5 (hbuf j hj) hlow
  rcases Nat.lt_or_ge j 11 with h11 | h11
  · obtain ⟨k, rfl⟩ := Nat.exists_eq_add_of_le h5
    rw [snstr_out _ _ (by omega), ← Nat.add_assoc]
    refine snstr_in (by omega) ?_ fun i hi => hlow (5 + i) (by omega)
    rw [snstr_out _ _ (by omega), Nat.add_assoc]
    exact hbuf _ hj
  · obtain ⟨k, rfl⟩ := Nat.exists_eq_add_of_le h11
    rw [← Nat.add_assoc]
    refine snstr_in (by omega) ?_ fun i hi => hlow (11 + i) (by omega)
    rw [snstr_out _ _ (by omega), snstr_out _ _ (by omega), Nat.add_assoc]
    exact hbuf _ hj

theorem readEntryName_out {base o : Nat} (de buf : Bytes) (h : o < base ∨ base + 13 ≤ o) :
    readEntryName base de buf o = buf o := by
  unfold readEntryName
  by_cases ha : de 11 = attrLongName
  · rw [if_pos ha, snstr_out _ _ (by omega), snstr_out _ _ (by omega), snstr_out _ _ (by omega)]
  · rw [if_neg ha]
    exact if_neg (by omega)

/-! The short name of a long one, and what becomes of it on disk and back. -/

example : generateShortname [0x61, 0x2e, 0x62, 0x2e, 0x63] =
    [0x41, 0x42, 0x20, 0x20, 0x20, 0x20, 0x20, 0x20, 0x43, 0x20, 0x20] := by decide

end Farron
