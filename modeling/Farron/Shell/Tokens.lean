import Farron.Descent.Parser
import Farron.Strings.Buffer

/-! The tokens of a command line, from `user/sh.c`.

The line is a string in a memory, and `gettoken` and `peek` move a pointer into it, up to its end `es`. What they are
to find are the tokens that the characters spell (`Reads`): blanks apart, `>>` before `>`, and words as long as
they can be. -/
namespace Farron.Sh
open Strings Descent

/-- `" \t\r\n\v"`. -/
def whitespace : List UInt8 := [32, 9, 13, 10, 11]

/-- `"<|>&;()"`. -/
def symbols : List UInt8 := [60, 124, 62, 38, 59, 40, 41]

/-- `|`, `(`, `)`, `;`, `&` and `<`. -/
def singles : List UInt8 := [124, 40, 41, 59, 38, 60]

def greater : UInt8 := 62

/-- What `gettoken` returns for `>>`, and for a word. -/
def plus : UInt8 := 43
def letterA : UInt8 := 97

/-- Whether `strchr` finds the character, which is not zero. -/
def strchr (s : List UInt8) (c : UInt8) : Bool := s.contains c

/-- The parser returns, or stops in `panic` with a message. -/
abbrev Parse : Type → Type := Descent.Parser Nat String

section Code
variable (mem : Nat → UInt8) (es : Nat)

/-- `while(s < es && good(*s)) s++`, where `n` is `es - s`. -/
def skipWhile (good : UInt8 → Bool) : Nat → Nat → Nat
  | 0, s => s
  | n + 1, s => if good (mem s) = true then skipWhile good n (s + 1) else s

def skipBlanks (s : Nat) : Nat := skipWhile mem (strchr whitespace) (es - s) s

/-- `!strchr(whitespace, *s) && !strchr(symbols, *s)`. -/
def inWord (c : UInt8) : Bool := !strchr whitespace c && !strchr symbols c

/-- The `switch` of `gettoken`: the token, and its end. -/
def tokenAt (s : Nat) : UInt8 × Nat :=
  if mem s = 0 then (0, s)
  else if strchr singles (mem s) = true then (mem s, s + 1)
  else if mem s = greater then if mem (s + 1) = greater then (plus, s + 2) else (greater, s + 1)
  else (letterA, skipWhile mem inWord (es - s) s)

/-- `gettoken`: the token, `*q` and `*eq`. -/
def gettoken : Parse (UInt8 × Nat × Nat) := fun s =>
  let q := skipBlanks mem es s
  some (.ok (((tokenAt mem es q).1, q, (tokenAt mem es q).2), skipBlanks mem es (tokenAt mem es q).2))

/-- `gettoken` with null pointers for `q` and `eq`. -/
def gettok : Parse UInt8 := do
  let (tok, _, _) ← gettoken mem es
  return tok

def peek (toks : List UInt8) : Parse Bool := fun s =>
  let s := skipBlanks mem es s
  some (.ok (mem s != 0 && strchr toks (mem s), s))

end Code

/-! ### What is meant -/

/-- A token; a word is known by its first character and the one behind its last. -/
inductive Token
  | bar
  | lparen
  | rparen
  | semi
  | amp
  | less
  | great
  | append
  | word (q eq : Nat)
  deriving DecidableEq

/-- The character a token starts with, except for words. -/
def Token.first : Token → Option UInt8
  | .bar => some 124
  | .lparen => some 40
  | .rparen => some 41
  | .semi => some 59
  | .amp => some 38
  | .less => some 60
  | .great | .append => some greater
  | .word _ _ => none

/-- What `gettoken` returns for it. -/
def Token.code : Token → UInt8
  | .append => plus
  | .word _ _ => letterA
  | t => t.first.getD 0

def IsBlank (c : UInt8) : Prop := c ∈ whitespace

/-- A character of a word. -/
def IsWord (c : UInt8) : Prop := c ≠ 0 ∧ c ∉ whitespace ∧ c ∉ symbols

/-- The characters from `p` on, up to the zero, spell the tokens. -/
inductive Reads (mem : Nat → UInt8) : Nat → List Token → Prop
  | nul {p : Nat} (h : mem p = 0) : Reads mem p []
  | blank {p : Nat} {ts : List Token} (h : IsBlank (mem p)) (rest : Reads mem (p + 1) ts) : Reads mem p ts
  | append {p : Nat} {ts : List Token} (h : mem p = greater) (h' : mem (p + 1) = greater)
      (rest : Reads mem (p + 2) ts) : Reads mem p (.append :: ts)
  | mark {p : Nat} {t : Token} {ts : List Token} (ht : t ≠ .append) (h : t.first = some (mem p))
      (h' : t = .great → mem (p + 1) ≠ greater) (rest : Reads mem (p + 1) ts) : Reads mem p (t :: ts)
  | word {p q : Nat} {ts : List Token} (hpq : p < q) (h : ∀ a, p ≤ a → a < q → IsWord (mem a))
      (h' : ¬ IsWord (mem q)) (rest : Reads mem q ts) : Reads mem p (.word p q :: ts)

/-- What is left of the line at `p`. -/
structure Left (mem : Nat → UInt8) (es p : Nat) (ts : List Token) : Prop where
  le : p ≤ es
  nonzero : ∀ a, p ≤ a → a < es → mem a ≠ 0
  reads : Reads mem p ts

/-- The first token is among those that start with one of the characters. -/
def among (toks : List UInt8) : List Token → Bool
  | [] => false
  | t :: _ => t.first.any (strchr toks)

/-! ### Characters -/

theorem strchr_iff {s : List UInt8} {c : UInt8} : strchr s c = true ↔ c ∈ s := List.contains_iff_mem

theorem not_strchr_iff {s : List UInt8} {c : UInt8} : strchr s c = false ↔ c ∉ s := by
  rw [← strchr_iff, Bool.not_eq_true]

theorem symbol_nonzero {c : UInt8} (h : c ∈ symbols) : c ≠ 0 := by
  rintro rfl
  revert h
  decide

theorem singles_symbols : ∀ c ∈ singles, c ∈ symbols := by decide +kernel

theorem symbol_not_blank {c : UInt8} (h : c ∈ symbols) : ¬ IsBlank c := by
  unfold IsBlank
  revert c
  decide +kernel

theorem blank_nonzero {c : UInt8} (h : IsBlank c) : c ≠ 0 := by
  rintro rfl
  revert h
  unfold IsBlank
  decide

theorem Token.first_symbol {t : Token} {c : UInt8} (h : t.first = some c) : c ∈ symbols := by
  cases t <;> simp only [first, Option.some.injEq, reduceCtorEq] at h <;> subst h <;> decide

/-- Only `>` and `>>` start with more than one token's character. -/
theorem Token.first_single {t : Token} {c : UInt8} (h : t.first = some c) (ht : t ≠ .great) (ht' : t ≠ .append) :
    c ∈ singles ∧ t.code = c := by
  cases t <;> simp only [first, Option.some.injEq, reduceCtorEq, ne_eq, not_true_eq_false] at h ht ht' <;> subst h <;> decide

theorem inWord_iff {c : UInt8} (hc : c ≠ 0) : inWord c = true ↔ IsWord c := by
  unfold inWord IsWord
  rw [Bool.and_eq_true, Bool.not_eq_true', Bool.not_eq_true', not_strchr_iff, not_strchr_iff]
  exact ⟨fun h => ⟨hc, h⟩, fun h => h.2⟩

theorem IsWord.not_zero {c : UInt8} (h : IsWord c) : c ≠ 0 := h.1
theorem IsWord.not_blank {c : UInt8} (h : IsWord c) : ¬ IsBlank c := h.2.1
theorem IsWord.not_symbol {c : UInt8} (h : IsWord c) : c ∉ symbols := h.2.2

/-! ### What the two find -/

section Lines
variable {mem : Nat → UInt8} {es p q : Nat} {ts : List Token}

/-- The loop stops at the first character that is not good, or at the end. -/
theorem skipWhile_eq {good : UInt8 → Bool} (hpq : p ≤ q) (hq : q ≤ es) (h : ∀ a, p ≤ a → a < q → good (mem a) = true)
    (hstop : q = es ∨ good (mem q) = false) : skipWhile mem good (es - p) p = q := by
  induction hk : q - p generalizing p with
  | zero =>
    obtain rfl : p = q := by omega
    rcases hstop with rfl | hstop
    · rw [Nat.sub_self]
      rfl
    · cases es - p with
      | zero => rfl
      | succ n => rw [skipWhile, if_neg (by simp [hstop])]
  | succ k ih =>
    have hleft : es - p = es - (p + 1) + 1 := by omega
    rw [hleft, skipWhile, if_pos (h p (le_refl p) (by omega))]
    exact ih (by omega) (fun a ha => h a (by omega)) (by omega)

theorem skipBlanks_blank (hp : p < es) (h : IsBlank (mem p)) : skipBlanks mem es p = skipBlanks mem es (p + 1) := by
  have hleft : es - p = es - (p + 1) + 1 := by omega
  unfold skipBlanks
  rw [hleft, skipWhile, if_pos (strchr_iff.mpr h)]

theorem skipBlanks_stop (h : ¬ IsBlank (mem p)) : skipBlanks mem es p = p := by
  unfold skipBlanks
  cases es - p with
  | zero => rfl
  | succ n => rw [skipWhile, if_neg fun hb => h (strchr_iff.mp hb)]

theorem lt_end (hes : mem es = 0) (hp : p ≤ es) (hne : mem p ≠ 0) : p < es := by
  apply lt_of_le_of_ne hp
  rintro rfl
  exact hne hes

namespace Left

theorem later {ts' : List Token} (h : Left mem es p ts) (hpq : p ≤ q) (hq : q ≤ es) (hreads : Reads mem q ts') : Left mem es q ts' :=
  ⟨hq, fun a ha => h.nonzero a (hpq.trans ha), hreads⟩

/-- Behind the blanks. -/
theorem settle (hes : mem es = 0) (h : Left mem es p ts) :
    Left mem es (skipBlanks mem es p) ts ∧ ¬ IsBlank (mem (skipBlanks mem es p)) := by
  have stop : ∀ {p ts}, Left mem es p ts → ¬ IsBlank (mem p) →
      Left mem es (skipBlanks mem es p) ts ∧ ¬ IsBlank (mem (skipBlanks mem es p)) := by
    intro p ts h hb
    rw [skipBlanks_stop hb]
    exact ⟨h, hb⟩
  have hreads := h.reads
  induction hreads with
  | nul hnul => exact stop h fun hb => blank_nonzero hb hnul
  | blank hb rest ih =>
    have hlt := lt_end hes h.le (blank_nonzero hb)
    rw [skipBlanks_blank hlt hb]
    exact ih (h.later (Nat.le_succ _) hlt rest)
  | append hg _ _ _ =>
    apply stop h
    rw [hg]
    exact symbol_not_blank (by decide)
  | mark _ hfirst _ _ _ => exact stop h (symbol_not_blank (Token.first_symbol hfirst))
  | word hpq hword _ _ _ => exact stop h (hword _ (le_refl _) hpq).not_blank

/-- What a character that is not blank says of the tokens. -/
theorem among_eq (h : Left mem es p ts) (hb : ¬ IsBlank (mem p)) {toks : List UInt8} (htoks : ∀ c ∈ toks, c ∈ symbols) :
    (mem p != 0 && strchr toks (mem p)) = among toks ts := by
  cases h.reads with
  | nul hnul => simp [hnul, among]
  | blank hblank _ => exact absurd hblank hb
  | append hg _ _ =>
    have hne : mem p ≠ 0 := symbol_nonzero (by rw [hg]; decide)
    simp [among, Token.first, ← hg, hne]
  | mark _ hfirst _ _ =>
    have hne : mem p ≠ 0 := symbol_nonzero (Token.first_symbol hfirst)
    simp [among, hfirst, hne]
  | word hpq hword _ _ =>
    have hno : strchr toks (mem p) = false :=
      not_strchr_iff.mpr fun hin => (hword p (le_refl p) hpq).not_symbol (htoks _ hin)
    simp [among, Token.first, hno]

end Left

/-- **`peek` tells what the next token starts with.** -/
theorem peek_takes (hes : mem es = 0) {toks : List UInt8} (htoks : toks.all (strchr symbols) = true) (ts : List Token) :
    Descent.Takes (Left mem es) (peek mem es toks) ts (among toks ts) ts := by
  have hall : ∀ c ∈ toks, c ∈ symbols := fun c hc => strchr_iff.mp (List.all_eq_true.mp htoks c hc)
  intro p hp
  obtain ⟨hleft, hb⟩ := hp.settle hes
  refine ⟨_, ?_, hleft⟩
  unfold peek
  rw [← hleft.among_eq hb hall]

/-- What `gettoken` is to find: nothing at the end, and else the first token and what is left behind it. -/
inductive Found : List Token → UInt8 × Nat × Nat → List Token → Prop
  | none (q eq : Nat) : Found [] (0, q, eq) []
  | word (q eq : Nat) (rest : List Token) : Found (.word q eq :: rest) (letterA, q, eq) rest
  | mark {t : Token} (ht : t.first.isSome) (q eq : Nat) (rest : List Token) : Found (t :: rest) (t.code, q, eq) rest

theorem gettoken_found (hes : mem es = 0) (h : Left mem es p ts) :
    ∃ r p' rest, gettoken mem es p = some (.ok (r, p')) ∧ Left mem es p' rest ∧ Found ts r rest := by
  obtain ⟨hleft, hb⟩ := h.settle hes
  generalize hs : skipBlanks mem es p = s at hleft hb
  have found : ∀ {tok eq rest}, tokenAt mem es s = (tok, eq) → Left mem es eq rest → Found ts (tok, s, eq) rest →
      ∃ r p' rest, gettoken mem es p = some (.ok (r, p')) ∧ Left mem es p' rest ∧ Found ts r rest := by
    intro tok eq rest htok hrest hfound
    refine ⟨(tok, s, eq), skipBlanks mem es eq, rest, ?_, (hrest.settle hes).1, hfound⟩
    unfold gettoken
    simp only [hs, htok]
  cases hreads : hleft.reads with
  | nul hnul => exact found (by rw [tokenAt, if_pos hnul]) hleft (.none ..)
  | blank hblank _ => exact absurd hblank hb
  | append hg hg' hrest =>
    have hne : mem s ≠ 0 := by rw [hg]; decide
    have hsingle : ¬ strchr singles (mem s) = true := by rw [hg]; decide
    have hlt := lt_end hes hleft.le hne
    have hlt' := lt_end hes (Nat.succ_le_of_lt hlt) (by rw [hg']; decide)
    have htok : tokenAt mem es s = (plus, s + 2) := by rw [tokenAt, if_neg hne, if_neg hsingle, if_pos hg, if_pos hg']
    exact found htok (hleft.later (by omega) hlt' hrest) (.mark (t := .append) rfl ..)
  | mark happ hfirst hlast hrest =>
    rename_i t ts
    have hne : mem s ≠ 0 := symbol_nonzero (Token.first_symbol hfirst)
    have hnext := hleft.later (Nat.le_succ s) (lt_end hes hleft.le hne) hrest
    have hmark : Found (t :: ts) (t.code, s, s + 1) ts := .mark (by simp [hfirst]) ..
    apply found _ hnext hmark
    by_cases hgreat : t = .great
    · subst hgreat
      have hg : mem s = greater := (Option.some.inj hfirst).symm
      have hsingle : ¬ strchr singles (mem s) = true := by rw [hg]; decide
      rw [tokenAt, if_neg hne, if_neg hsingle, if_pos hg, if_neg (hlast rfl)]
      rfl
    · obtain ⟨hsingle, hcode⟩ := Token.first_single hfirst hgreat happ
      rw [tokenAt, if_neg hne, if_pos (strchr_iff.mpr hsingle), hcode]
  | word hpq hword hend hrest =>
    rename_i q ts
    have hfirst := hword s (le_refl s) hpq
    have hq : q ≤ es := by
      by_contra hlt
      exact (hword es hleft.le (by omega)).not_zero hes
    have hsingle : ¬ strchr singles (mem s) = true := by
      rw [strchr_iff]
      exact fun h => hfirst.not_symbol (singles_symbols _ h)
    have hgreat : mem s ≠ greater := fun h => hfirst.not_symbol (by rw [h]; decide)
    have hskip : skipWhile mem inWord (es - s) s = q := by
      apply skipWhile_eq hpq.le hq fun a ha ha' => (inWord_iff (hword a ha ha').not_zero).mpr (hword a ha ha')
      by_cases hes' : q = es
      · exact .inl hes'
      · have hne := hleft.nonzero q hpq.le (by omega)
        exact .inr (by rw [← Bool.not_eq_true, inWord_iff hne]; exact hend)
    have htok : tokenAt mem es s = (letterA, q) := by rw [tokenAt, if_neg hfirst.not_zero, if_neg hsingle, if_neg hgreat, hskip]
    exact found htok (hleft.later hpq.le hq hrest) (.word ..)

/-- **`gettoken` finds the first token**, and nothing at the end. -/
theorem gettoken_ends (hes : mem es = 0) (ts : List Token) : Descent.Ends (Left mem es) (gettoken mem es) ts (Found ts) := by
  intro p hp
  obtain ⟨r, p', rest, hok, hrest, hfound⟩ := gettoken_found hes hp
  exact .inr ⟨r, p', rest, hok, hrest, hfound⟩

theorem gettoken_word (hes : mem es = 0) (q eq : Nat) (ts : List Token) :
    Descent.Takes (Left mem es) (gettoken mem es) (.word q eq :: ts) (letterA, q, eq) ts := by
  intro p hp
  obtain ⟨r, p', rest, hok, hrest, hfound⟩ := gettoken_found hes hp
  cases hfound with
  | word => exact ⟨p', hok, hrest⟩
  | mark ht => cases ht

theorem gettok_takes (hes : mem es = 0) (t : Token) (ts : List Token) :
    Descent.Takes (Left mem es) (gettok mem es) (t :: ts) t.code ts := by
  intro p hp
  obtain ⟨r, p', rest, hok, hrest, hfound⟩ := gettoken_found hes hp
  refine ⟨p', ?_, ?_⟩
  · unfold gettok
    rw [Parser.andThen_ok hok]
    cases hfound <;> rfl
  · cases hfound <;> exact hrest

/-- Nothing is left only at the end. -/
theorem Left.settled_iff (hes : mem es = 0) (h : Left mem es p ts) (hb : ¬ IsBlank (mem p)) : p = es ↔ ts = [] := by
  have hend : p = es ↔ mem p = 0 :=
    ⟨fun hp => by rw [hp, hes], fun hnul => by_contra fun hne => h.nonzero p (le_refl p) (lt_of_le_of_ne h.le hne) hnul⟩
  rw [hend]
  cases h.reads with
  | nul hnul => simp [hnul]
  | blank hblank _ => exact absurd hblank hb
  | append hg _ _ => simp [hg, greater]
  | mark _ hfirst _ _ => simp [symbol_nonzero (Token.first_symbol hfirst)]
  | word hpq hword _ _ => simp [(hword p (le_refl p) hpq).not_zero]

theorem gettoken_end (hes : mem es = 0) : Descent.Takes (Left mem es) (gettoken mem es) [] (0, es, es) [] := by
  intro p hp
  obtain ⟨hleft, hb⟩ := hp.settle hes
  have hend := (hleft.settled_iff hes hb).mpr rfl
  refine ⟨skipBlanks mem es es, ?_, ?_⟩
  · have htok : tokenAt mem es es = (0, es) := by rw [tokenAt, if_pos hes]
    unfold gettoken
    simp only [hend, htok]
  · rw [hend] at hleft
    exact (hleft.settle hes).1

/-! ### Every line is read -/

/-- Where a word that starts here ends. -/
theorem exists_wordEnd (hes : mem es = 0) (hp : p ≤ es) (h : IsWord (mem p)) :
    ∃ q, p < q ∧ q ≤ es ∧ (∀ a, p ≤ a → a < q → IsWord (mem a)) ∧ ¬ IsWord (mem q) := by
  induction hk : es - p generalizing p with
  | zero =>
    obtain rfl : p = es := by omega
    exact absurd hes h.not_zero
  | succ k ih =>
    by_cases hnext : IsWord (mem (p + 1))
    · obtain ⟨q, hpq, hq, hword, hend⟩ := ih (by omega) hnext (by omega)
      refine ⟨q, by omega, hq, fun a ha haq => ?_, hend⟩
      rcases Nat.eq_or_lt_of_le ha with rfl | ha
      · exact h
      · exact hword a ha haq
    · refine ⟨p + 1, Nat.lt_succ_self p, by omega, fun a ha haq => ?_, hnext⟩
      obtain rfl : a = p := by omega
      exact h

/-- A symbol is what a token starts with. -/
theorem exists_first {c : UInt8} (h : c ∈ symbols) : ∃ t : Token, t ≠ .append ∧ t.first = some c := by
  have hall : ∀ c ∈ symbols, c = 60 ∨ c = 124 ∨ c = 62 ∨ c = 38 ∨ c = 59 ∨ c = 40 ∨ c = 41 := by decide +kernel
  rcases hall c h with rfl | rfl | rfl | rfl | rfl | rfl | rfl
  · exact ⟨.less, by decide, rfl⟩
  · exact ⟨.bar, by decide, rfl⟩
  · exact ⟨.great, by decide, rfl⟩
  · exact ⟨.amp, by decide, rfl⟩
  · exact ⟨.semi, by decide, rfl⟩
  · exact ⟨.lparen, by decide, rfl⟩
  · exact ⟨.rparen, by decide, rfl⟩

theorem exists_reads (hes : mem es = 0) (hp : p ≤ es) : ∃ ts, Reads mem p ts := by
  induction hk : es - p using Nat.strong_induction_on generalizing p with
  | _ k ih =>
    subst hk
    by_cases hnul : mem p = 0
    · exact ⟨[], .nul hnul⟩
    have hlt := lt_end hes hp hnul
    obtain ⟨ts, hrest⟩ := ih (es - (p + 1)) (by omega) hlt rfl
    by_cases hblank : IsBlank (mem p)
    · exact ⟨ts, .blank hblank hrest⟩
    by_cases hsymbol : mem p ∈ symbols
    · by_cases hboth : mem p = greater ∧ mem (p + 1) = greater
      · have hlt' := lt_end hes hlt (by rw [hboth.2]; decide)
        obtain ⟨ts', hrest'⟩ := ih (es - (p + 2)) (by omega) hlt' rfl
        exact ⟨.append :: ts', .append hboth.1 hboth.2 hrest'⟩
      · obtain ⟨t, happ, hfirst⟩ := exists_first hsymbol
        refine ⟨t :: ts, .mark happ hfirst ?_ hrest⟩
        rintro rfl hg
        exact hboth ⟨(Option.some.inj hfirst).symm, hg⟩
    · obtain ⟨q, hpq, hq, hword, hend⟩ := exists_wordEnd hes hp ⟨hnul, hblank, hsymbol⟩
      obtain ⟨ts', hrest'⟩ := ih (es - q) (by omega) hq rfl
      exact ⟨.word p q :: ts', .word hpq hword hend hrest'⟩

/-- A word of the line is one of the memory. -/
theorem Reads.word_mem {eq : Nat} (h : Reads mem p ts) (hw : .word q eq ∈ ts) :
    p ≤ q ∧ q < eq ∧ (∀ a, q ≤ a → a < eq → IsWord (mem a)) ∧ ¬ IsWord (mem eq) := by
  induction h with
  | nul _ => cases hw
  | blank _ _ ih =>
    obtain ⟨hle, hrest⟩ := ih hw
    exact ⟨by omega, hrest⟩
  | append _ _ _ ih =>
    rcases List.mem_cons.mp hw with hw | hw
    · cases hw
    · obtain ⟨hle, hrest⟩ := ih hw
      exact ⟨by omega, hrest⟩
  | mark _ hfirst _ _ ih =>
    rcases List.mem_cons.mp hw with rfl | hw
    · cases hfirst
    · obtain ⟨hle, hrest⟩ := ih hw
      exact ⟨by omega, hrest⟩
  | word hpq hword hend _ ih =>
    rcases List.mem_cons.mp hw with hw | hw
    · cases hw
      exact ⟨le_refl _, hpq, hword, hend⟩
    · obtain ⟨hle, hrest⟩ := ih hw
      exact ⟨by omega, hrest⟩

end Lines

end Farron.Sh
