import Farron.Fat.Names
import Farron.Strings.Buffer

/-! Which names `formatname` lets through.

`formatname` works in the memory its argument is in: one pointer goes over the spaces and dots at
the front, another to the NUL and back, and a NUL is written behind the last character that is no
space. `formatnameAt` is these loops, which compute what `formatname` is on strings
(`formatnameAt_formatname`). The result is a name that can be used unless
nothing is left of the string (`formatMeets_iff`). -/
namespace Farron
open Strings

/-! ### The loops -/

/-- The first loop of `formatname`: the first character that is neither a space nor a dot. -/
def skipFront (mem : Bytes) : Nat → Nat → Nat
  | 0, name => name
  | n + 1, name => if mem name = charSpace ∨ mem name = charDot then skipFront mem n (name + 1) else name

/-- The second loop: the end of the string, unless a character is illegal. -/
def findEnd (mem : Bytes) : Nat → Nat → Option Nat
  | 0, p => some p
  | n + 1, p =>
    if mem p = 0 then some p
    else if mem p < 0x20 ∨ mem p ∈ formatnameIllegal then none
    else findEnd mem n (p + 1)

/-- The third loop, `while (p-- > name)`. -/
def cutBack (name : Nat) (mem : Bytes) : Nat → Bytes
  | 0 => mem
  | p + 1 =>
    if p + 1 > name then if mem p ≠ charSpace then Function.update mem (p + 1) 0 else cutBack name mem p
    else mem

/-- The memory `formatname` leaves, and the pointer it returns. A string shorter than `n` takes no more than
`n` rounds of a loop. -/
def formatnameAt (n : Nat) (mem : Bytes) (name : Nat) : Bytes × Option Nat :=
  let name := skipFront mem n name
  match findEnd mem n name with
  | none => (mem, none)
  | some p => (cutBack name mem p, some name)

/-- A character that `formatname` drops at the front. -/
def isFront (c : Byte) : Bool := c == charSpace || c == charDot

/-- A character that no name may have. -/
def Illegal (c : Byte) : Prop := c < 0x20 ∨ c ∈ formatnameIllegal

instance (c : Byte) : Decidable (Illegal c) := inferInstanceAs (Decidable (_ ∨ _))

theorem formatname_eq (s : CString) : formatname s =
    if ∃ c ∈ s.dropWhile isFront, Illegal c then none
    else some ((s.dropWhile isFront).rdropWhile (· == charSpace)) := by
  have hany : ((s.dropWhile isFront).any fun c => c < 0x20 || formatnameIllegal.contains c) = true ↔
      ∃ c ∈ s.dropWhile isFront, Illegal c := by
    simp [Illegal, List.any_eq_true]
  show (if ((s.dropWhile isFront).any fun c => c < 0x20 || formatnameIllegal.contains c) = true then none
    else some ((s.dropWhile isFront).rdropWhile (· == charSpace))) = _
  by_cases h : ∃ c ∈ s.dropWhile isFront, Illegal c
  · rw [if_pos h, if_pos (hany.mpr h)]
  · rw [if_neg h, if_neg fun hb => h (hany.mp hb)]

section Loops
variable {mem : Bytes} {p : Nat} {s : CString}

theorem skipFront_stringAt (h : StringAt mem p s) {n : Nat} (hn : s.length ≤ n) :
    skipFront mem n p + (s.dropWhile isFront).length = p + s.length ∧
      StringAt mem (skipFront mem n p) (s.dropWhile isFront) := by
  induction s generalizing p n with
  | nil =>
    have h0 : skipFront mem n p = p := by
      cases n with
      | zero => rfl
      | succ n =>
        rw [skipFront, h.nul_empty, if_neg (by decide)]
    rw [h0]
    exact ⟨rfl, h⟩
  | cons c s ih =>
    obtain ⟨n, rfl⟩ : ∃ m, n = m + 1 := ⟨n - 1, by rw [List.length_cons] at hn; omega⟩
    rw [skipFront, h.head]
    by_cases hc : c = charSpace ∨ c = charDot
    · have hf : isFront c = true := by simpa [isFront] using hc
      obtain ⟨hlen, hat⟩ := ih h.tail (n := n) (by simpa using hn)
      rw [if_pos hc, List.dropWhile_cons_of_pos hf]
      refine ⟨?_, hat⟩
      rw [hlen, List.length_cons]
      omega
    · have hf : ¬ isFront c = true := by simpa [isFront] using hc
      rw [if_neg hc, List.dropWhile_cons_of_neg hf]
      exact ⟨rfl, h⟩

theorem findEnd_stringAt (h : StringAt mem p s) {n : Nat} (hn : s.length < n) :
    findEnd mem n p = if ∃ c ∈ s, Illegal c then none else some (p + s.length) := by
  induction s generalizing p n with
  | nil =>
    obtain ⟨n, rfl⟩ : ∃ m, n = m + 1 := ⟨n - 1, by omega⟩
    rw [findEnd, if_pos h.nul_empty, if_neg (by simp)]
    rfl
  | cons c s ih =>
    obtain ⟨n, rfl⟩ : ∃ m, n = m + 1 := ⟨n - 1, by omega⟩
    rw [findEnd, if_neg h.head_ne_zero, h.head]
    by_cases hc : c < 0x20 ∨ c ∈ formatnameIllegal
    · rw [if_pos hc, if_pos ⟨c, by simp, hc⟩]
    · have hiff : (∃ d ∈ c :: s, Illegal d) ↔ ∃ d ∈ s, Illegal d := by
        constructor
        · rintro ⟨d, hd, hill⟩
          rcases List.mem_cons.mp hd with rfl | hd
          · exact absurd hill hc
          · exact ⟨d, hd, hill⟩
        · rintro ⟨d, hd, hill⟩
          exact ⟨d, List.mem_cons_of_mem _ hd, hill⟩
      rw [if_neg hc, ih h.tail (by simpa using hn), List.length_cons, Nat.add_assoc, Nat.add_comm 1]
      simp only [hiff]

theorem cutBack_self (mem : Bytes) (name : Nat) : cutBack name mem name = mem := by
  cases name with
  | zero => rfl
  | succ p => rw [cutBack, if_neg (by omega)]

/-- The third loop writes behind `name` and no further than it started from. -/
theorem cutBack_out {name o : Nat} (ho : o ≤ name ∨ p < o) : cutBack name mem p o = mem o := by
  induction p with
  | zero => rfl
  | succ p ih =>
    rw [cutBack]
    split_ifs
    · rw [Function.update_of_ne (by omega)]
    · exact ih (by omega)
    · rfl

/-- The third loop cuts the string behind its last character that is no space; `t` is what it has
gone over already. -/
theorem cutBack_stringAt {t : CString} (h : StringAt mem p (s ++ t)) (hs : ∃ c ∈ s, c ≠ charSpace) :
    StringAt (cutBack p mem (p + s.length)) p (s.rdropWhile (· == charSpace)) := by
  induction s using List.reverseRecOn generalizing t with
  | nil => simp at hs
  | append_singleton s c ih =>
    have hc : mem (p + s.length) = c := h.chars s.length c (by simp)
    rw [List.length_append, List.length_singleton, ← Nat.add_assoc, cutBack, if_pos (by omega), hc]
    by_cases hsp : c = charSpace
    · have hrest : ∃ d ∈ s, d ≠ charSpace := by
        obtain ⟨d, hd, hne⟩ := hs
        rcases List.mem_append.mp hd with hd | hd
        · exact ⟨d, hd, hne⟩
        · exact absurd ((List.mem_singleton.mp hd).trans hsp) hne
      rw [if_neg (not_not.mpr hsp), List.rdropWhile_concat_pos _ _ _ (by simpa using hsp)]
      exact ih (t := c :: t) (by simpa using h) hrest
    · rw [if_pos hsp, List.rdropWhile_concat_neg _ _ _ (by simpa using hsp)]
      have hcut := h.cut
      rwa [List.length_append, List.length_singleton, ← Nat.add_assoc] at hcut

/-- A string that ends in something else is left as it is. -/
theorem cutBack_kept {c : Byte} (h : StringAt mem p (s ++ [c])) (hc : c ≠ charSpace) :
    cutBack p mem (p + (s ++ [c]).length) = mem := by
  have hlast : mem (p + s.length) = c := h.chars s.length c (by simp)
  have hnul := h.nul
  rw [List.length_append, List.length_singleton, ← Nat.add_assoc] at hnul ⊢
  rw [cutBack, if_pos (by omega), hlast, if_pos hc]
  exact Function.update_eq_self_iff.mpr hnul.symm

end Loops

/-! ### What it returns -/

section Result
variable {mem : Bytes} {p n : Nat} {s : CString} (h : StringAt mem p s) (hn : s.length < n)
include h hn

theorem formatnameAt_none (hill : ∃ c ∈ s.dropWhile isFront, Illegal c) : formatnameAt n mem p = (mem, none) := by
  obtain ⟨hlen, hat⟩ := skipFront_stringAt h hn.le
  have hend := findEnd_stringAt hat (n := n) ((List.dropWhile_suffix _).length_le.trans_lt hn)
  rw [if_pos hill] at hend
  simp only [formatnameAt, hend]

theorem formatnameAt_some (hill : ¬ ∃ c ∈ s.dropWhile isFront, Illegal c) :
    formatnameAt n mem p = (cutBack (skipFront mem n p) mem (p + s.length), some (skipFront mem n p)) := by
  obtain ⟨hlen, hat⟩ := skipFront_stringAt h hn.le
  have hend := findEnd_stringAt hat (n := n) ((List.dropWhile_suffix _).length_le.trans_lt hn)
  rw [if_neg hill, hlen] at hend
  simp only [formatnameAt, hend]

/-- What stands at the pointer returned: the string without what is trimmed. -/
theorem formatnameAt_stringAt : StringAt (cutBack (skipFront mem n p) mem (p + s.length)) (skipFront mem n p)
    ((s.dropWhile isFront).rdropWhile (· == charSpace)) := by
  obtain ⟨hlen, hat⟩ := skipFront_stringAt h hn.le
  rw [← hlen]
  cases hdrop : s.dropWhile isFront with
  | nil =>
    rw [hdrop] at hat
    rw [List.length_nil, Nat.add_zero, cutBack_self]
    exact hat
  | cons c rest =>
    have hfront := List.head?_dropWhile_not isFront s
    rw [hdrop] at hat hfront
    have hc : c ≠ charSpace ∧ c ≠ charDot := by simpa [isFront] using hfront
    exact cutBack_stringAt (t := []) (by simpa using hat) ⟨c, by simp, hc.1⟩

/-- **The loops compute `formatname`.** -/
theorem formatnameAt_formatname :
    match formatname s with
    | none => formatnameAt n mem p = (mem, none)
    | some name => ∃ mem' q, formatnameAt n mem p = (mem', some q) ∧ StringAt mem' q name := by
  rw [formatname_eq]
  by_cases hill : ∃ c ∈ s.dropWhile isFront, Illegal c
  · rw [if_pos hill]
    exact formatnameAt_none h hn hill
  · rw [if_neg hill]
    exact ⟨_, _, formatnameAt_some h hn hill, formatnameAt_stringAt h hn⟩

end Result

/-- A name that can be used: no illegal character, and nothing at its ends that is to be trimmed. -/
structure Usable (name : CString) : Prop where
  nonempty : name ≠ []
  head : ∀ c, name.head? = some c → c ≠ charSpace ∧ c ≠ charDot
  last : ∀ c, name.getLast? = some c → c ≠ charSpace
  legal : ∀ c ∈ name, ¬ Illegal c

/-- What `formatname` is to do with the string `s` at `p`. -/
structure Formatted (n : Nat) (mem : Bytes) (p : Nat) (s : CString) : Prop where
  null : (formatnameAt n mem p).2 = none ↔ ∃ c ∈ s.dropWhile isFront, Illegal c
  /-- The name is the string from the pointer on, cut behind its last character that is no space,
  and formatting it again changes nothing. -/
  result : ∀ q, (formatnameAt n mem p).2 = some q → ∃ k name m, q = p + k ∧
    StringAt (formatnameAt n mem p).1 q name ∧ s.drop k = name ++ List.replicate m charSpace ∧ Usable name ∧
    formatnameAt n (formatnameAt n mem p).1 q = ((formatnameAt n mem p).1, some q)
  /-- No byte outside the string is written. -/
  inside : ∀ o, o < p ∨ p + s.length < o → (formatnameAt n mem p).1 o = mem o

def FormatMeets (s : CString) : Prop :=
  ∀ n mem p, StringAt mem p s → s.length < n → Formatted n mem p s

theorem rdropWhile_replicate (c : Byte) (s : CString) : ∃ m, s = s.rdropWhile (· == c) ++ List.replicate m c := by
  induction s using List.reverseRecOn with
  | nil => exact ⟨0, rfl⟩
  | append_singleton s d ih =>
    by_cases hd : d = c
    · obtain ⟨m, hm⟩ := ih
      refine ⟨m + 1, ?_⟩
      rw [List.rdropWhile_concat_pos _ _ _ (by simpa using hd), List.replicate_succ', ← List.append_assoc, ← hm, hd]
    · refine ⟨0, ?_⟩
      rw [List.rdropWhile_concat_neg _ _ _ (by simpa using hd), List.replicate_zero, List.append_nil]

/-- What is left of a string with something in it can be used. -/
theorem usable_trimmed {s : CString} (hill : ¬ ∃ c ∈ s.dropWhile isFront, Illegal c) (hs : s.dropWhile isFront ≠ []) :
    Usable ((s.dropWhile isFront).rdropWhile (· == charSpace)) := by
  obtain ⟨c, rest, hcons⟩ := List.exists_cons_of_ne_nil hs
  have hhead : isFront c = false := by
    have := List.head?_dropWhile_not isFront s
    rw [hcons] at this
    simpa using this
  have hsp : c ≠ charSpace ∧ c ≠ charDot := by simpa [isFront] using hhead
  obtain ⟨m, hm⟩ := rdropWhile_replicate charSpace (s.dropWhile isFront)
  have hne : (s.dropWhile isFront).rdropWhile (· == charSpace) ≠ [] := by
    intro hnil
    rw [hnil, List.nil_append, hcons] at hm
    have hmem : c ∈ List.replicate m charSpace := by
      rw [← hm]
      simp
    exact hsp.1 (List.eq_of_mem_replicate hmem)
  have hpre : (s.dropWhile isFront).rdropWhile (· == charSpace) <+: s.dropWhile isFront := List.rdropWhile_prefix _ _
  refine ⟨hne, fun d hd => ?_, fun d hd => ?_, fun d hd hbad => hill ⟨d, hpre.subset hd, hbad⟩⟩
  · have hsame : d = c := by
      rw [List.head?_eq_some_head hne] at hd
      rw [← Option.some.inj hd, hpre.head hne]
      simp only [hcons, List.head_cons]
    rw [hsame]
    exact hsp
  · have hlast := List.rdropWhile_last_not (· == charSpace) (s.dropWhile isFront) hne
    rw [List.getLast?_eq_getLast_of_ne_nil hne] at hd
    rw [← Option.some.inj hd]
    simpa using hlast

/-- A usable name is formatted already. -/
theorem Usable.formatnameAt_eq {mem : Bytes} {q n : Nat} {name : CString} (hu : Usable name) (h : StringAt mem q name)
    (hn : name.length < n) : formatnameAt n mem q = (mem, some q) := by
  obtain ⟨c, rest, hcons⟩ := List.exists_cons_of_ne_nil hu.nonempty
  obtain ⟨hsp, hdot⟩ := hu.head c (by rw [hcons]; rfl)
  have hdrop : name.dropWhile isFront = name := by
    rw [hcons, List.dropWhile_cons_of_neg (by simp [isFront, hsp, hdot])]
  have hskip : skipFront mem n q = q := by
    have hlen := (skipFront_stringAt h hn.le).1
    rw [hdrop] at hlen
    omega
  rw [formatnameAt_some h hn (by rw [hdrop]; exact fun ⟨d, hd, hbad⟩ => hu.legal d hd hbad), hskip]
  have hlast : name = name.dropLast ++ [name.getLast hu.nonempty] := (List.dropLast_append_getLast hu.nonempty).symm
  have hne := hu.last _ (List.getLast?_eq_getLast_of_ne_nil hu.nonempty)
  rw [hlast] at h ⊢
  rw [cutBack_kept h hne]

theorem dropWhile_isFront_nil {s : CString} :
    s.dropWhile isFront = [] ↔ ¬ ∃ c ∈ s, c ≠ charSpace ∧ c ≠ charDot := by
  rw [List.dropWhile_eq_nil_iff]
  simp [isFront, or_iff_not_imp_left]

/-- Of spaces and dots nothing is left that could be a name. -/
theorem FormatMeets.something {s : CString} (hmeets : FormatMeets s) (hs : ∀ c ∈ s, c ≠ 0) :
    ∃ c ∈ s, c ≠ charSpace ∧ c ≠ charDot := by
  by_contra hnone
  have hdrop := dropWhile_isFront_nil.mpr hnone
  have hat : StringAt (fun i => s.getD i 0) 0 s := by
    refine ⟨fun i c hc => ?_, by simp, hs⟩
    simp [hc]
  have hill : ¬ ∃ c ∈ s.dropWhile isFront, Illegal c := by simp [hdrop]
  have hf := hmeets (s.length + 1) _ 0 hat (Nat.lt_succ_self _)
  have hres := formatnameAt_some hat (Nat.lt_succ_self _) hill
  obtain ⟨k, name, m, hk, -, hname, husable, -⟩ := hf.result _ (by rw [hres])
  -- the pointer returned is at the NUL
  have hlen := (skipFront_stringAt hat (Nat.le_succ _)).1
  rw [hdrop, List.length_nil] at hlen
  rw [List.drop_eq_nil_of_le (by omega)] at hname
  exact husable.nonempty (List.append_eq_nil_iff.mp hname.symm).1

/-- **`formatname` does what it is for on the strings that have something besides spaces and dots.** -/
theorem formatMeets_iff {s : CString} (hs : ∀ c ∈ s, c ≠ 0) :
    FormatMeets s ↔ ∃ c ∈ s, c ≠ charSpace ∧ c ≠ charDot := by
  constructor
  · exact fun hmeets => hmeets.something hs
  · intro hsome n mem p h hn
    have hne : s.dropWhile isFront ≠ [] := fun he => dropWhile_isFront_nil.mp he hsome
    by_cases hill : ∃ c ∈ s.dropWhile isFront, Illegal c
    · have hres := formatnameAt_none h hn hill
      refine ⟨?_, fun q hq => ?_, fun o _ => ?_⟩
      · rw [hres]
        exact iff_of_true rfl hill
      · rw [hres] at hq
        cases hq
      · rw [hres]
    · have hres := formatnameAt_some h hn hill
      have hlen := (skipFront_stringAt h hn.le).1
      have hsuffix := (List.dropWhile_suffix isFront : s.dropWhile isFront <:+ s)
      have hle := hsuffix.length_le
      have husable := usable_trimmed hill hne
      have hcut := formatnameAt_stringAt h hn
      refine ⟨?_, fun q hq => ?_, fun o ho => ?_⟩
      · rw [hres]
        exact iff_of_false (by simp) hill
      · rw [hres] at hq ⊢
        obtain rfl := Option.some.inj hq
        obtain ⟨m, hm⟩ := rdropWhile_replicate charSpace (s.dropWhile isFront)
        refine ⟨s.length - (s.dropWhile isFront).length, _, m, by omega, hcut, ?_, husable, ?_⟩
        · rw [← List.suffix_iff_eq_drop.mp hsuffix]
          exact hm
        · exact husable.formatnameAt_eq hcut (((List.rdropWhile_prefix _ _).length_le.trans hle).trans_lt hn)
      · rw [hres]
        exact cutBack_out (by omega)

theorem formatMeets_letter : FormatMeets [charDot, 0x61, charSpace] :=
  (formatMeets_iff (by simp [charDot, charSpace])).mpr ⟨0x61, by simp, by decide⟩

/-- Three dots are made into an empty name. -/
theorem not_formatMeets : ¬ ∀ s : CString, (∀ c ∈ s, c ≠ 0) → FormatMeets s := by
  intro h
  obtain ⟨c, hc, hne⟩ := (h [charDot, charDot, charDot] (by simp [charDot])).something (by simp [charDot])
  have hdot : c = charDot := by simpa using hc
  exact hne.2 hdot

end Farron
