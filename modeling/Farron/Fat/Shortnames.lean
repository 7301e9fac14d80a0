import Farron.Fat.Legal

/-! The short names that `generate_shortname` makes.

Its one loop has three positions: in the name, in the short name, and the last dot of the name, which it forgets
once it is behind it. So the loop has two parts. As long as it knows the dot it fills the eight characters of the
base (`loop_stem`); then it fills the three of the extension (`loop_extension`). What comes out is a legal short
name unless the name begins with the byte that marks a deleted record (`shortnameMeets_iff`). -/
namespace Farron

/-- A character that the base of a short name can have. -/
def inBase (c : Byte) : Bool := c != charSpace && c != charDot

/-- The same for the extension, where there is no dot. -/
def inExtension (c : Byte) : Bool := c != charSpace

/-- A field of a short name: the characters as they go into it, and spaces. -/
def field (n : Nat) (s : CString) : CString := s.map shortnameChar ++ List.replicate (n - s.length) charSpace

theorem length_field {n : Nat} {s : CString} (h : s.length ≤ n) : (field n s).length = n := by
  simp [field, h]

/-! ### The loop -/

section Loop
variable {name rest ext out : CString} {fuel pos : Nat} {c : Byte}

theorem char_at (h : name.drop pos = c :: rest) : pos < name.length ∧ name.getD pos 0 = c ∧ name.drop (pos + 1) = rest := by
  have hpos : pos < name.length := by
    by_contra hge
    rw [List.drop_eq_nil_of_le (by omega)] at h
    cases h
  rw [List.drop_eq_getElem_cons hpos] at h
  obtain ⟨hc, hrest⟩ := List.cons.inj h
  exact ⟨hpos, by simp [List.getD, hpos, hc], hrest⟩

theorem loop_end (h : name.drop pos = []) (p : Option Nat) : shortnameLoop name fuel out pos p = out := by
  have hpos : ¬ pos < name.length := by simpa using h
  cases fuel with
  | zero => rfl
  | succ fuel => simp [shortnameLoop, hpos]

theorem loop_full (h : out.length = charShortName) (p : Option Nat) : shortnameLoop name fuel out pos p = out := by
  cases fuel with
  | zero => rfl
  | succ fuel => simp [shortnameLoop, h]

/-- A blank is passed over. -/
theorem loop_blank (h : name.drop pos = charSpace :: rest) {p : Option Nat} (hp : out.length = 8 → p = none)
    (hout : out.length < charShortName) :
    shortnameLoop name (fuel + 1) out pos p = shortnameLoop name fuel out (pos + 1) p := by
  obtain ⟨hpos, hc, -⟩ := char_at h
  have hjump : ¬ (out.length = 8 ∧ p.isSome) := fun hb => by simp [hp hb.1] at hb
  simp only [shortnameLoop, hc, hout, hpos, hjump, and_self, if_true, if_false]

/-- A character of the name is put. -/
theorem loop_char (h : name.drop pos = c :: rest) (hc : inBase c = true) {p : Option Nat} (hp : out.length = 8 → p = none)
    (hout : out.length < charShortName) :
    shortnameLoop name (fuel + 1) out pos p = shortnameLoop name fuel (out ++ [shortnameChar c]) (pos + 1) p := by
  obtain ⟨hpos, hat, -⟩ := char_at h
  have hjump : ¬ (out.length = 8 ∧ p.isSome) := fun hb => by simp [hp hb.1] at hb
  have hkept : c ≠ charSpace ∧ c ≠ charDot := by simpa [inBase] using hc
  simp only [shortnameLoop, hat, hout, hpos, hjump, hkept.1, hkept.2, and_self, if_true, if_false]

/-- The base is full: on to what is behind the dot. -/
theorem loop_jump (hpos : pos < name.length) (hfull : out.length = 8) {dot : Nat} (hdot : pos ≤ dot) :
    shortnameLoop name (fuel + 1) out pos (some dot) = shortnameLoop name fuel out (dot + 1) none := by
  have hroom : 8 < charShortName := by decide
  have hahead : ¬ dot + 1 < pos + 1 := by omega
  simp only [shortnameLoop, hpos, hroom, hfull, Option.isSome_some, Option.getD_some, hahead, and_self, if_true, if_false]

/-- The second part: three characters at most, of what is behind the dot. -/
theorem loop_extension (h : name.drop pos = rest) (hdot : charDot ∉ rest) (hfuel : rest.length < fuel)
    (hlow : 8 ≤ out.length) (hout : out.length ≤ charShortName) :
    shortnameLoop name fuel out pos none =
      out ++ ((rest.filter inExtension).take (charShortName - out.length)).map shortnameChar := by
  induction rest generalizing out pos fuel with
  | nil => simp [loop_end h]
  | cons c rest ih =>
    obtain ⟨fuel, rfl⟩ : ∃ k, fuel = k + 1 := ⟨fuel - 1, by omega⟩
    have hnext := (char_at h).2.2
    have hdots : charDot ∉ rest := fun hm => hdot (List.mem_cons_of_mem _ hm)
    have hshort : rest.length < fuel := by simpa using hfuel
    by_cases hfull : out.length = charShortName
    · simp [loop_full hfull, hfull]
    have hroom : out.length < charShortName := by omega
    by_cases hblank : c = charSpace
    · subst hblank
      rw [loop_blank h (fun _ => rfl) hroom, ih hnext hdots hshort hlow hout]
      simp [inExtension]
    · have hbase : inBase c = true := by
        simp only [inBase, bne_iff_ne, Bool.and_eq_true, ne_eq]
        exact ⟨hblank, fun hd => hdot (by simp [hd])⟩
      have hkept : inExtension c = true := by simpa [inExtension] using hblank
      rw [loop_char h hbase (fun _ => rfl) hroom, ih hnext hdots hshort (by simp; omega) (by simp; omega),
        List.filter_cons_of_pos hkept, List.length_append, List.length_singleton]
      obtain ⟨k, hk⟩ : ∃ k, charShortName - out.length = k + 1 := ⟨charShortName - out.length - 1, by omega⟩
      rw [hk, show charShortName - (out.length + 1) = k by omega, List.take_succ_cons]
      simp

/-- The first part, in front of the last dot: eight characters at most, and then the second part. -/
theorem loop_stem (h : name.drop pos = rest ++ charDot :: ext) (hdot : charDot ∉ ext)
    (hfuel : rest.length + ext.length + 1 < fuel) (hout : out.length ≤ 8) :
    shortnameLoop name fuel out pos (some (pos + rest.length)) =
      out ++ field (8 - out.length) ((rest.filter inBase).take (8 - out.length)) ++
        ((ext.filter inExtension).take 3).map shortnameChar := by
  induction rest generalizing out pos fuel with
  | nil =>
    obtain ⟨fuel, rfl⟩ : ∃ k, fuel = k + 1 := ⟨fuel - 1, by omega⟩
    obtain ⟨hpos, hat, hnext⟩ := char_at h
    have hshort : ext.length < fuel := by simp only [List.length_nil] at hfuel; omega
    have hroom : out.length < charShortName := by simp only [charShortName]; omega
    by_cases hfull : out.length = 8
    · rw [List.length_nil, loop_jump hpos hfull (by omega), loop_extension hnext hdot hshort (by omega) hroom.le, hfull]
      simp [field, charShortName]
    · have hpad : shortnameLoop name (fuel + 1) out pos (some (pos + 0)) =
          shortnameLoop name fuel (out ++ List.replicate (8 - out.length) charSpace) (pos + 1) none := by
        have hne : ¬ (charDot = charSpace) := by decide
        have hbelow : dotBelow (some (pos + 0)) (pos + 1) = true := decide_eq_true (by omega)
        simp only [shortnameLoop, hpos, hroom, hfull, hat, hne, hbelow, false_and, and_self, if_true, if_false]
      have hlen : (out ++ List.replicate (8 - out.length) charSpace).length = 8 := by simp; omega
      rw [List.length_nil, hpad, loop_extension hnext hdot hshort (by omega) (by simp [hlen, charShortName]), hlen]
      simp [field, charShortName]
  | cons c rest ih =>
    obtain ⟨fuel, rfl⟩ : ∃ k, fuel = k + 1 := ⟨fuel - 1, by omega⟩
    obtain ⟨hpos, hat, hnext⟩ := char_at h
    have hroom : out.length < charShortName := by simp only [charShortName]; omega
    have hshort : rest.length + ext.length + 1 < fuel := by simp only [List.length_cons] at hfuel; omega
    have hdotAt : pos + (c :: rest).length = pos + 1 + rest.length := by simp only [List.length_cons]; omega
    rw [hdotAt]
    by_cases hfull : out.length = 8
    · have hext : name.drop (pos + 1 + rest.length + 1) = ext := by
        rw [show pos + 1 + rest.length + 1 = pos + 1 + (rest.length + 1) by omega, ← List.drop_drop, hnext]
        simp
      rw [loop_jump hpos hfull (by omega), loop_extension hext hdot (by omega) (by omega) hroom.le, hfull]
      simp [field, charShortName]
    have hnotFull : out.length = 8 → some (pos + 1 + rest.length) = none := fun hb => absurd hb hfull
    by_cases hkept : inBase c = true
    · rw [loop_char h hkept hnotFull hroom, ih hnext hshort (by simp; omega), List.filter_cons_of_pos hkept,
        List.length_append, List.length_singleton]
      obtain ⟨k, hk⟩ : ∃ k, 8 - out.length = k + 1 := ⟨8 - out.length - 1, by omega⟩
      rw [hk, show 8 - (out.length + 1) = k by omega, List.take_succ_cons]
      simp [field]
    · rw [List.filter_cons_of_neg hkept]
      have hskip : shortnameLoop name (fuel + 1) out pos (some (pos + 1 + rest.length)) =
          shortnameLoop name fuel out (pos + 1) (some (pos + 1 + rest.length)) := by
        by_cases hblank : c = charSpace
        · subst hblank
          exact loop_blank h hnotFull hroom
        · have hinner : c = charDot := by
            by_contra hd
            exact hkept (by simp [inBase, hblank, hd])
          have hahead : dotBelow (some (pos + 1 + rest.length)) (pos + 1) = false := decide_eq_false (by omega)
          have hne : ¬ (charDot = charSpace) := by decide
          rw [hinner] at hat
          simp only [shortnameLoop, hpos, hroom, hfull, hat, hne, hahead, false_and, and_self, Bool.false_eq_true, if_true, if_false]
      rw [hskip]
      exact ih hnext hshort hout

/-- Without a dot there is only the first part. -/
theorem loop_noDot (h : name.drop pos = rest) (hdot : charDot ∉ rest) (hfuel : rest.length < fuel)
    (hpos : out.length ≤ pos) (hout : out.length ≤ 8) :
    shortnameLoop name fuel out pos (some 0) = out ++ ((rest.filter inBase).take (8 - out.length)).map shortnameChar := by
  induction rest generalizing out pos fuel with
  | nil => simp [loop_end h]
  | cons c rest ih =>
    obtain ⟨fuel, rfl⟩ : ∃ k, fuel = k + 1 := ⟨fuel - 1, by omega⟩
    obtain ⟨hin, -, hnext⟩ := char_at h
    have hroom : out.length < charShortName := by simp only [charShortName]; omega
    have hshort : rest.length < fuel := by simpa using hfuel
    have hdots : charDot ∉ rest := fun hm => hdot (List.mem_cons_of_mem _ hm)
    by_cases hfull : out.length = 8
    · have hstop : 0 < pos := by omega
      have hbehind : 0 + 1 < pos + 1 := by omega
      simp [shortnameLoop, hin, hfull, hbehind, charShortName]
    have hnotFull : out.length = 8 → some 0 = none := fun hb => absurd hb hfull
    by_cases hblank : c = charSpace
    · subst hblank
      rw [loop_blank h hnotFull hroom, ih hnext hdots hshort (by omega) hout]
      simp [inBase]
    · have hkept : inBase c = true := by
        simp only [inBase, bne_iff_ne, Bool.and_eq_true, ne_eq]
        exact ⟨hblank, fun hd => hdot (by simp [hd])⟩
      rw [loop_char h hkept hnotFull hroom, ih hnext hdots hshort (by simp; omega) (by simp; omega),
        List.filter_cons_of_pos hkept, List.length_append, List.length_singleton]
      obtain ⟨k, hk⟩ : ∃ k, 8 - out.length = k + 1 := ⟨8 - out.length - 1, by omega⟩
      rw [hk, show 8 - (out.length + 1) = k by omega, List.take_succ_cons]
      simp

end Loop

/-! ### The last dot -/

theorem lastDot_of_none {name : CString} (h : charDot ∉ name) : lastDot name = 0 := by
  have hnone : ((List.range name.length).reverse.find? fun j => name[j]? == some charDot) = none := by
    rw [List.find?_eq_none]
    intro j _ hj
    exact h (List.mem_of_getElem? (by simpa using hj))
  simp [lastDot, hnone]

theorem lastDot_eq {stem ext : CString} (h : charDot ∉ ext) : lastDot (stem ++ charDot :: ext) = stem.length := by
  have hsplit : (List.range (stem ++ charDot :: ext).length).reverse =
      ((List.range ext.length).map (stem.length + 1 + ·)).reverse ++ (stem.length :: (List.range stem.length).reverse) := by
    have hlen : (stem ++ charDot :: ext).length = stem.length + 1 + ext.length := by simp; omega
    rw [hlen, List.range_add, List.range_succ]
    simp
  have hext : (((List.range ext.length).map (stem.length + 1 + ·)).reverse.find? fun j =>
      (stem ++ charDot :: ext)[j]? == some charDot) = none := by
    rw [List.find?_eq_none]
    intro j hj hdot
    obtain ⟨i, -, rfl⟩ := List.mem_map.mp (List.mem_reverse.mp hj)
    rw [show stem.length + 1 + i = stem.length + (i + 1) by omega, List.getElem?_append_right (by omega)] at hdot
    have hmem : ext[i]? = some charDot := by simpa using hdot
    exact h (List.mem_of_getElem? hmem)
  rw [lastDot, hsplit, List.find?_append, hext]
  simp

/-! ### The short name -/

section Result
variable {name stem ext : CString}

theorem generateShortname_noDot (h : charDot ∉ name) :
    generateShortname name = field 8 ((name.filter inBase).take 8) ++ field 3 [] := by
  have hloop : shortnameLoop name (name.length + 1) [] 0 (some 0) = _ :=
    loop_noDot (List.drop_zero ..) h (by omega) (by simp) (by simp)
  have hlen : ((name.filter inBase).take 8).length ≤ 8 := List.length_take_le ..
  rw [generateShortname, lastDot_of_none h, hloop]
  simp only [field, List.nil_append, List.map_nil, List.length_nil, List.length_map, Nat.sub_zero, List.append_assoc,
    List.replicate_append_replicate]
  rw [show charShortName - ((name.filter inBase).take 8).length = 8 - ((name.filter inBase).take 8).length + 3 by
    simp only [charShortName]; omega]

theorem generateShortname_split (h : charDot ∉ ext) :
    generateShortname (stem ++ charDot :: ext) =
      field 8 ((stem.filter inBase).take 8) ++ field 3 ((ext.filter inExtension).take 3) := by
  have hloop : shortnameLoop (stem ++ charDot :: ext) ((stem ++ charDot :: ext).length + 1) [] 0 (some (0 + stem.length)) = _ :=
    loop_stem (List.drop_zero ..) h (by simp) (by simp)
  have hbase : (field 8 ((stem.filter inBase).take 8)).length = 8 := by simp [field]
  rw [generateShortname, lastDot_eq h, ← Nat.zero_add stem.length, hloop]
  simp only [List.nil_append, List.length_nil, Nat.sub_zero, List.length_append, hbase, List.append_assoc]
  congr 1
  simp [field, charShortName]
  omega

/-- The characters that are not letters, and not put for another one, are themselves. -/
theorem shortnameChar_ne {c d : Byte} (hd : d < 0x41 ∨ 0x60 ≤ d) (hcd : c ≠ d) : shortnameChar c ≠ d := by
  unfold shortnameChar charUnderscore
  split_ifs with hlower hillegal
  · intro he
    grind
  · grind
  · exact hcd

end Result

/-- The first three characters of an extension that are no blanks, or with the blanks. -/
def keptThree (ext : CString) : CString := (ext.filter inExtension).take 3
def anyThree (ext : CString) : CString := ext.take 3

/-- What the short name of `name` is to be, where `three` are the characters taken of the extension. -/
structure ShortnameMeets (three : CString → CString) (name : CString) : Prop where
  length : (generateShortname name).length = charShortName
  noDot : charDot ∉ name → generateShortname name = field 8 ((name.filter inBase).take 8) ++ field 3 []
  split : ∀ stem ext, name = stem ++ charDot :: ext → charDot ∉ ext →
    generateShortname name = field 8 ((stem.filter inBase).take 8) ++ field 3 (three ext)
  /-- It is no end mark, no blank and not the mark of a deleted record. -/
  first : ∀ c, (generateShortname name).head? = some c → c ≠ 0 ∧ c ≠ charSpace ∧ c ≠ emptyEntry

/-- A name is without a dot, or has a last one. -/
theorem exists_lastDot {name : CString} (h : charDot ∈ name) : ∃ stem ext, name = stem ++ charDot :: ext ∧ charDot ∉ ext := by
  obtain ⟨ext, stem, hsplit, hnone⟩ := List.eq_append_cons_of_mem (List.mem_reverse.mpr h)
  refine ⟨stem.reverse, ext.reverse, ?_, by simpa using hnone⟩
  rw [← List.reverse_reverse name, hsplit]
  simp

theorem take_filter_of_all {p : Byte → Bool} (s : CString) (n : Nat) (h : ∀ c ∈ s.take n, p c = true) :
    (s.filter p).take n = s.take n := by
  induction s generalizing n with
  | nil => rfl
  | cons c s ih =>
    cases n with
    | zero => simp
    | succ n =>
      have hc : p c = true := h c (by simp)
      rw [List.filter_cons_of_pos hc, List.take_succ_cons, List.take_succ_cons, ih n fun d hd => h d (by simp [hd])]

section Names
variable {s name : CString} (h : formatname s = some name) (hne : name ≠ [])
include h hne

theorem formatname_usable : Usable name := by
  rw [formatname_eq] at h
  split_ifs at h with hill
  cases h
  refine usable_trimmed hill fun hnil => hne ?_
  simp [hnil]

/-- The first byte is the first character of the name. -/
theorem generateShortname_first : (generateShortname name).head? = name.head?.map shortnameChar := by
  have husable := formatname_usable h hne
  obtain ⟨c, rest, rfl⟩ := List.exists_cons_of_ne_nil hne
  obtain ⟨hsp, hdot⟩ := husable.head c rfl
  have hkept : inBase c = true := by simp [inBase, hsp, hdot]
  by_cases hmem : charDot ∈ c :: rest
  · obtain ⟨stem, ext, hsplit, hext⟩ := exists_lastDot hmem
    cases stem with
    | nil =>
      cases hsplit
      exact absurd rfl hdot
    | cons d stem =>
      obtain ⟨rfl, -⟩ := List.cons.inj hsplit
      rw [hsplit, generateShortname_split hext]
      simp [field, hkept]
  · rw [generateShortname_noDot hmem]
    simp [field, hkept]

theorem shortnameMeets_first {three : CString → CString} (hm : ShortnameMeets three name) : name.head? ≠ some emptyEntry := by
  intro hhead
  have hfirst := generateShortname_first h hne
  rw [hhead] at hfirst
  exact (hm.first _ hfirst).2.2 (by decide)

/-- The kept characters are what the code takes. -/
theorem shortnameMeets_kept (hhead : name.head? ≠ some emptyEntry) : ShortnameMeets keptThree name := by
  have husable := formatname_usable h hne
  refine ⟨?_, generateShortname_noDot, fun stem ext hsplit hext => ?_, fun c hc => ?_⟩
  · by_cases hmem : charDot ∈ name
    · obtain ⟨stem, ext, hsplit, hext⟩ := exists_lastDot hmem
      rw [hsplit, generateShortname_split hext, List.length_append, length_field (List.length_take_le ..),
        length_field (List.length_take_le ..)]
      rfl
    · rw [generateShortname_noDot hmem, List.length_append, length_field (List.length_take_le ..), length_field (by simp)]
      rfl
  · rw [hsplit]
    exact generateShortname_split hext
  · rw [generateShortname_first h hne] at hc
    obtain ⟨d, hd, rfl⟩ := Option.map_eq_some_iff.mp hc
    have hzero : d ≠ 0 := by
      have hlegal := husable.legal d (List.mem_of_mem_head? hd)
      intro hz
      subst hz
      exact hlegal (.inl (by decide))
    have hempty : d ≠ emptyEntry := fun he => hhead (he ▸ hd)
    exact ⟨shortnameChar_ne (.inl (by decide)) hzero, shortnameChar_ne (.inl (by decide)) (husable.head d hd).1,
      shortnameChar_ne (.inr (by decide)) hempty⟩

/-- With the blanks, the three characters come out only if there is none among them. -/
theorem anyThree_iff {stem ext : CString} (hsplit : name = stem ++ charDot :: ext) :
    field 3 (keptThree ext) = field 3 (anyThree ext) ↔ charSpace ∉ ext.take 3 := by
  refine ⟨fun hsame hmem => ?_, fun hnone => ?_⟩
  · obtain ⟨a, b, hab, ha⟩ := List.eq_append_cons_of_mem (List.mem_of_mem_take hmem)
    have hshort : a.length < 3 := by
      by_contra hlong
      rw [hab, List.take_append_of_le_length (by omega)] at hmem
      exact ha (List.mem_of_mem_take hmem)
    -- the name does not end in a blank: there is another character behind this one
    have hsome : b.filter inExtension ≠ [] := by
      intro hnil
      have hblank : ∀ c ∈ b, c = charSpace := by simpa [inExtension] using hnil
      have husable := formatname_usable h hne
      have hlast : name.getLast? = some ((charSpace :: b).getLast (by simp)) := by
        simp [hsplit, hab, List.getLast?_eq_getLast_of_ne_nil]
      refine husable.last _ hlast ?_
      rcases List.mem_cons.mp (List.getLast_mem (l := charSpace :: b) (by simp)) with he | hmem
      · exact he
      · exact hblank _ hmem
    obtain ⟨d, rest, hd⟩ := List.exists_cons_of_ne_nil hsome
    have hdne : d ≠ charSpace := by
      have hin : d ∈ b.filter inExtension := by simp [hd]
      simpa [inExtension] using List.of_mem_filter hin
    have hkeep : a.filter inExtension = a := by
      rw [List.filter_eq_self]
      intro c hc
      simp only [inExtension, bne_iff_ne, ne_eq]
      exact fun he => ha (he ▸ hc)
    have hleft : (field 3 (keptThree ext))[a.length]? = some (shortnameChar d) := by
      have hfilter : ext.filter inExtension = a ++ d :: rest := by
        simp [hab, List.filter_append, hkeep, hd, inExtension]
      simp [field, keptThree, hfilter, hshort]
    have hright : (field 3 (anyThree ext))[a.length]? = some (shortnameChar charSpace) := by
      simp [field, anyThree, hab, hshort]
    rw [hsame, hright] at hleft
    exact shortnameChar_ne (.inl (by decide)) hdne (Option.some.inj hleft).symm
  · have hall : ∀ c ∈ ext.take 3, inExtension c = true := by
      intro c hc
      simp only [inExtension, bne_iff_ne, ne_eq]
      exact fun he => hnone (he ▸ hc)
    rw [keptThree, anyThree, take_filter_of_all ext 3 hall]

end Names

/-- **The generated short name is a legal one** if and only if the name does not begin with the mark of a deleted record;
if the extension is to keep its blanks, there must be none among its first three characters. -/
theorem shortnameMeets_iff {s name : CString} (h : formatname s = some name) (hne : name ≠ []) :
    (ShortnameMeets keptThree name ↔ name.head? ≠ some emptyEntry) ∧
    (ShortnameMeets anyThree name ↔ name.head? ≠ some emptyEntry ∧
      ∀ stem ext, name = stem ++ charDot :: ext → charDot ∉ ext → charSpace ∉ ext.take 3) := by
  refine ⟨⟨shortnameMeets_first h hne, shortnameMeets_kept h hne⟩, fun hm => ?_, fun ⟨hhead, hblanks⟩ => ?_⟩
  · refine ⟨shortnameMeets_first h hne hm, fun stem ext hsplit hext => (anyThree_iff h hne hsplit).mp ?_⟩
    have hany := hm.split stem ext hsplit hext
    rw [hsplit, generateShortname_split hext] at hany
    exact List.append_cancel_left hany
  · have hkept := shortnameMeets_kept h hne hhead
    refine ⟨hkept.length, hkept.noDot, fun stem ext hsplit hext => ?_, hkept.first⟩
    rw [hkept.split stem ext hsplit hext, (anyThree_iff h hne hsplit).mpr (hblanks stem ext hsplit hext)]

/-- ` a.b`. -/
theorem shortnameMeets_letters : ShortnameMeets keptThree [0x61, 0x2e, 0x62] :=
  (shortnameMeets_iff (s := [0x20, 0x61, 0x2e, 0x62]) (by decide) (by decide)).1.mpr (by decide)

/-- A name that begins with 0xE5 gets a record that looks deleted, whatever is taken of the extension. -/
theorem not_shortnameMeets : ¬ ∃ three, ∀ s name : CString, formatname s = some name → name ≠ [] → ShortnameMeets three name := by
  rintro ⟨three, h⟩
  have hname : formatname [0xe5, 0x61] = some [0xe5, 0x61] := by decide
  exact shortnameMeets_first hname (by decide) (h _ _ hname (by decide)) rfl

end Farron
