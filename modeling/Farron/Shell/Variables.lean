import Farron.Strings.Buffer
import Mathlib.Algebra.Order.BigOperators.Group.List

/-! The variables of the shell, from `user/sh.c`.

The table `envs` is a list, and the strings in it, in `raw` and in `name` are lists without their zeros;
the line is rewritten in place, in a memory. Sizes are not checked, here as there: what is said
is about lines, names and values that fit their arrays. `replace` puts the values of all the
bindings of a name, where the latest is meant (`replace_latest_iff`). -/
namespace Farron
open Strings

def nenvs : Nat := 16

def dollar : UInt8 := 36
def slash : UInt8 := 47
def equals : UInt8 := 61

/-- `-p`. -/
def dashP : List UInt8 := [45, 112]

structure Env where
  name : List UInt8
  value : List UInt8
  deriving DecidableEq

/-- A letter or `_`. -/
def isStart (c : UInt8) : Bool := 65 ≤ c && c ≤ 90 || 97 ≤ c && c ≤ 122 || c == 95

/-- That, or a digit. -/
def isIdent (c : UInt8) : Bool := isStart c || 48 ≤ c && c ≤ 57

/-! ### `export` -/

/-- How long the identifier is that the string starts with. -/
def checkenvname : List UInt8 → Nat
  | [] => 0
  | c :: s => if isStart c = true then 1 + (s.takeWhile isIdent).length else 0

/-- `if(*--t == '/') *t = 0`; behind an empty value it looks at the byte before the array. -/
def dropSlash (value : List UInt8) : List UInt8 := if value.getLast? = some slash then value.dropLast else value

/-- `export`, with the argument `argv[1]`: what it returns, and the table. -/
def shExport (arg : List UInt8) (envs : List Env) : Int × List Env :=
  if arg = dashP then (0, envs)
  else if envs.length = nenvs then (-1, envs)
  else
    match arg.dropWhile (· ≠ equals) with
    -- the loop leaves the string: what it takes for a name has a zero inside
    | [] => (-1, envs)
    | _ :: value =>
      if checkenvname (arg.takeWhile (· ≠ equals)) ≠ (arg.takeWhile (· ≠ equals)).length then (-1, envs)
      else (0, envs ++ [⟨arg.takeWhile (· ≠ equals), dropSlash value⟩])

/-- `SHELL` is `/bin` from the start. -/
def embedded : Env := ⟨[83, 72, 69, 76, 76], [47, 98, 105, 110]⟩

/-- The table after some `export`s that are all accepted. -/
def exportAll : List (List UInt8) → List Env → Option (List Env)
  | [], envs => some envs
  | arg :: args, envs => if (shExport arg envs).1 = 0 then exportAll args (shExport arg envs).2 else none

/-! ### `replace` -/

/-- `for(; (*t = *tmp); t++, tmp++)`: the memory, and `t`. -/
def copyOut : List UInt8 → (Nat → UInt8) → Nat → (Nat → UInt8) × Nat
  | [], mem, t => (Function.update mem t 0, t)
  | c :: v, mem, t => copyOut v (Function.update mem t c) (t + 1)

/-- The loop over the table. -/
def putValues (name : List UInt8) : List Env → (Nat → UInt8) → Nat → (Nat → UInt8) × Nat
  | [], mem, t => (mem, t)
  | e :: envs, mem, t =>
    if name = e.name then putValues name envs (copyOut e.value mem t).1 (copyOut e.value mem t).2
    else putValues name envs mem t

/-- Whether an identifier starts here. -/
def startsName : List UInt8 → Bool
  | [] => false
  | c :: _ => isStart c

/-- The loop of `replace`: `raw` is what is left of the copy, `n` the dollars so far. Each turn takes a
character at least, so that `fuel` is the length of the copy. -/
def replaceLoop (envs : List Env) : Nat → List UInt8 → (Nat → UInt8) → Nat → Int → (Nat → UInt8) × Int
  | _, [], mem, t, n => (Function.update mem t 0, n)
  | 0, _ :: _, mem, _, n => (mem, n)
  | fuel + 1, c :: s, mem, t, n =>
    if c = dollar then
      if startsName s = true then
        -- `t--`, and the `t++` of the loop
        replaceLoop envs fuel (s.dropWhile isIdent) (putValues (s.takeWhile isIdent) envs (Function.update mem t c) t).1
          ((putValues (s.takeWhile isIdent) envs (Function.update mem t c) t).2 - 1 + 1) (n + 1)
      else replaceLoop envs fuel s (Function.update mem t c) (t + 1) (n + 1)
    else replaceLoop envs fuel s (Function.update mem t c) (t + 1) n

/-- `strcpy(raw, buf)`, where the array has 100 bytes. -/
def rawCopy (mem : Nat → UInt8) (buf : Nat) : List UInt8 := (List.range (strlen mem 100 buf)).map fun k => mem (buf + k)

/-- `replace`: the memory, and what it returns. -/
def replace (envs : List Env) (mem : Nat → UInt8) (buf : Nat) : (Nat → UInt8) × Int :=
  replaceLoop envs (rawCopy mem buf).length (rawCopy mem buf) mem buf 0

/-! ### What is meant -/

/-- A line is made of characters and variables. -/
inductive Piece
  | char (c : UInt8)
  | var (name : List UInt8)
  deriving DecidableEq

/-- The first `n` pieces of a line; a name is as long as it can be. -/
def piecesOf : Nat → List UInt8 → List Piece
  | _, [] => []
  | 0, _ :: _ => []
  | n + 1, c :: s =>
    if c = dollar ∧ startsName s = true then .var (s.takeWhile isIdent) :: piecesOf n (s.dropWhile isIdent)
    else .char c :: piecesOf n s

/-- What a piece stands for. -/
def Piece.text (value : List UInt8 → List UInt8) : Piece → List UInt8
  | .char c => [c]
  | .var name => value name

/-- The line with a value for each variable. -/
def expand (value : List UInt8 → List UInt8) (line : List UInt8) : List UInt8 :=
  (piecesOf line.length line).flatMap (Piece.text value)

/-- The bindings of a name, the latest last. -/
def bindings (envs : List Env) (name : List UInt8) : List Env := envs.filter fun e => name = e.name

/-- The latest value; nothing if there is none. -/
def latest (envs : List Env) (name : List UInt8) : List UInt8 := (bindings envs name).getLast?.elim [] (·.value)

/-- What an `export` says. -/
def given (arg : List UInt8) : Option Env :=
  if arg = dashP then none
  else some ⟨arg.takeWhile (· ≠ equals), dropSlash ((arg.dropWhile (· ≠ equals)).drop 1)⟩

/-- What has been exported. -/
def exported (args : List (List UInt8)) : List Env := embedded :: args.filterMap given

/-! ### The table -/

theorem exportAll_eq {args : List (List UInt8)} {envs envs' : List Env} (h : exportAll args envs = some envs') :
    envs' = envs ++ args.filterMap given := by
  induction args generalizing envs with
  | nil =>
    cases h
    exact (List.append_nil _).symm
  | cons arg args ih =>
    unfold exportAll at h
    by_cases hok : (shExport arg envs).1 = 0
    · rw [if_pos hok] at h
      have hstep : (shExport arg envs).2 = envs ++ (given arg).toList := by
        unfold shExport at hok ⊢
        unfold given
        by_cases hp : arg = dashP
        · rw [if_pos hp, if_pos hp]
          exact (List.append_nil _).symm
        · rw [if_neg hp] at hok ⊢
          rw [if_neg hp]
          by_cases hfull : envs.length = nenvs
          · rw [if_pos hfull] at hok
            cases hok
          · rw [if_neg hfull] at hok ⊢
            cases hrest : arg.dropWhile (· ≠ equals) with
            | nil =>
              rw [hrest] at hok
              cases hok
            | cons c value =>
              rw [hrest] at hok
              dsimp only at hok ⊢
              by_cases hname : checkenvname (arg.takeWhile (· ≠ equals)) ≠ (arg.takeWhile (· ≠ equals)).length
              · rw [if_pos hname] at hok
                cases hok
              · rw [if_neg hname]
                rfl
      rw [ih h, hstep, List.append_assoc]
      cases hg : given arg with
      | none => rw [List.filterMap_cons_none hg]; rfl
      | some e => rw [List.filterMap_cons_some hg]; rfl
    · rw [if_neg hok] at h
      cases h

/-- A value is made of characters of the argument. -/
theorem given_value {arg : List UInt8} {e : Env} (h : given arg = some e) : ∀ c ∈ e.value, c ∈ arg := by
  unfold given at h
  by_cases hp : arg = dashP
  · rw [if_pos hp] at h
    cases h
  · rw [if_neg hp] at h
    cases h
    intro c hc
    apply (List.dropWhile_sublist (· ≠ equals)).subset
    apply List.mem_of_mem_drop (i := 1)
    revert hc
    show c ∈ dropSlash _ → _
    unfold dropSlash
    split_ifs
    · exact List.mem_of_mem_dropLast
    · exact id

/-! ### The line -/

/-- What has been written from `p` on. -/
structure Spelled (mem : Nat → UInt8) (p : Nat) (out : List UInt8) : Prop where
  chars : ∀ i c, out[i]? = some c → mem (p + i) = c
  nonzero : ∀ c ∈ out, c ≠ 0

namespace Spelled
variable {mem : Nat → UInt8} {p : Nat} {out : List UInt8} {c : UInt8}

/-- What stands behind does not matter. -/
theorem behind (h : Spelled mem p out) (c : UInt8) : Spelled (Function.update mem (p + out.length) c) p out := by
  refine ⟨fun i d hd => ?_, h.nonzero⟩
  have hi := (List.getElem?_eq_some_iff.mp hd).1
  rw [Function.update_of_ne (by omega)]
  exact h.chars i d hd

theorem put (h : Spelled mem p out) (hc : c ≠ 0) : Spelled (Function.update mem (p + out.length) c) p (out ++ [c]) := by
  refine ⟨fun i d hd => ?_, fun d hd => ?_⟩
  · by_cases hi : i < out.length
    · rw [List.getElem?_append_left hi] at hd
      exact (h.behind c).chars i d hd
    · have hlen := (List.getElem?_eq_some_iff.mp hd).1
      rw [List.length_append, List.length_singleton] at hlen
      have hlast : i = out.length := by omega
      subst hlast
      rw [List.getElem?_concat_length] at hd
      rw [Function.update_self]
      exact Option.some.inj hd
  · rcases List.mem_append.mp hd with hd | hd
    · exact h.nonzero d hd
    · rw [List.mem_singleton.mp hd]
      exact hc

/-- The zero that ends it. -/
theorem finish (h : Spelled mem p out) : StringAt (Function.update mem (p + out.length) 0) p out :=
  ⟨(h.behind 0).chars, Function.update_self .., h.nonzero⟩

end Spelled

section Loop
variable {mem : Nat → UInt8} {p : Nat} {out : List UInt8}

theorem copyOut_written {v : List UInt8} (hv : ∀ c ∈ v, c ≠ 0) (h : Spelled mem p out) :
    (copyOut v mem (p + out.length)).2 = p + (out ++ v).length ∧ Spelled (copyOut v mem (p + out.length)).1 p (out ++ v) := by
  induction v generalizing mem out with
  | nil =>
    rw [List.append_nil]
    exact ⟨rfl, h.behind 0⟩
  | cons c v ih =>
    have hput := h.put (hv c (List.mem_cons_self ..))
    have hnext := ih (fun d hd => hv d (List.mem_cons_of_mem _ hd)) hput
    rw [List.append_assoc, List.length_append, List.length_singleton] at hnext
    exact hnext

/-- All the values of a name, in order. -/
def allValues (envs : List Env) (name : List UInt8) : List UInt8 := (bindings envs name).flatMap (·.value)

theorem putValues_written (name : List UInt8) {envs : List Env} (henvs : ∀ e ∈ envs, ∀ c ∈ e.value, c ≠ 0)
    (h : Spelled mem p out) :
    (putValues name envs mem (p + out.length)).2 = p + (out ++ allValues envs name).length ∧
      Spelled (putValues name envs mem (p + out.length)).1 p (out ++ allValues envs name) := by
  induction envs generalizing mem out with
  | nil =>
    have hnone : allValues [] name = [] := rfl
    rw [hnone, List.append_nil]
    exact ⟨rfl, h⟩
  | cons e envs ih =>
    have hrest : ∀ e ∈ envs, ∀ c ∈ e.value, c ≠ 0 := fun e he => henvs e (List.mem_cons_of_mem _ he)
    unfold putValues
    by_cases hname : name = e.name
    · have hall : allValues (e :: envs) name = e.value ++ allValues envs name := by
        unfold allValues bindings
        rw [List.filter_cons_of_pos (by simpa using hname), List.flatMap_cons]
      obtain ⟨ht, hw⟩ := copyOut_written (henvs e (List.mem_cons_self ..)) h
      rw [if_pos hname, ht, hall, ← List.append_assoc]
      exact ih hrest hw
    · have hall : allValues (e :: envs) name = allValues envs name := by
        unfold allValues bindings
        rw [List.filter_cons_of_neg (by simpa using hname)]
      rw [if_neg hname, hall]
      exact ih hrest h

/-- What the loop leaves: the line with all the values of each variable. -/
theorem replaceLoop_written {envs : List Env} (henvs : ∀ e ∈ envs, ∀ c ∈ e.value, c ≠ 0) (hp : 0 < p) (fuel : Nat)
    {s : List UInt8} (hfuel : s.length ≤ fuel) (hs : ∀ c ∈ s, c ≠ 0) (n : Int) (h : Spelled mem p out) :
    StringAt (replaceLoop envs fuel s mem (p + out.length) n).1 p
      (out ++ (piecesOf fuel s).flatMap (Piece.text (allValues envs))) := by
  induction fuel generalizing s mem out n with
  | zero =>
    rw [List.length_eq_zero_iff.mp (Nat.le_zero.mp hfuel)]
    show StringAt _ p (out ++ [])
    rw [List.append_nil]
    exact h.finish
  | succ fuel ih =>
    cases s with
    | nil =>
      show StringAt _ p (out ++ [])
      rw [List.append_nil]
      exact h.finish
    | cons c s =>
      have hfuel : s.length ≤ fuel := Nat.le_of_succ_le_succ hfuel
      have hrest : ∀ d ∈ s, d ≠ 0 := fun d hd => hs d (List.mem_cons_of_mem _ hd)
      have hput := h.put (hs c (List.mem_cons_self ..))
      have hchar : ∀ n, StringAt (replaceLoop envs fuel s (Function.update mem (p + out.length) c) (p + out.length + 1) n).1 p
          (out ++ ([c] ++ (piecesOf fuel s).flatMap (Piece.text (allValues envs)))) := by
        intro n
        have hnext := ih hfuel hrest n hput
        rw [List.append_assoc, List.length_append, List.length_singleton] at hnext
        exact hnext
      unfold replaceLoop piecesOf
      by_cases hdollar : c = dollar
      · rw [if_pos hdollar]
        by_cases hname : startsName s = true
        · rw [if_pos hname, if_pos ⟨hdollar, hname⟩, List.flatMap_cons, ← List.append_assoc]
          obtain ⟨ht, hw⟩ := putValues_written (s.takeWhile isIdent) henvs (h.behind c)
          have hback : p + (out ++ allValues envs (s.takeWhile isIdent)).length - 1 + 1 =
              p + (out ++ allValues envs (s.takeWhile isIdent)).length := by omega
          rw [ht, hback]
          refine ih ?_ (fun d hd => hrest d ((List.dropWhile_sublist _).subset hd)) (n + 1) hw
          exact (List.dropWhile_sublist _).length_le.trans hfuel
        · rw [if_neg hname, if_neg fun h => hname h.2, List.flatMap_cons]
          exact hchar (n + 1)
      · rw [if_neg hdollar, if_neg fun h => hdollar h.1, List.flatMap_cons]
        exact hchar n

theorem rawCopy_eq {s : List UInt8} (h : StringAt mem p s) (hfit : s.length ≤ 100) : rawCopy mem p = s := by
  unfold rawCopy
  rw [h.strlen_eq hfit]
  refine List.ext_getElem (by simp) fun k hk hk' => ?_
  rw [List.getElem_map, List.getElem_range]
  exact h.chars k s[k] (List.getElem?_eq_getElem hk')

theorem replace_written {envs : List Env} (henvs : ∀ e ∈ envs, ∀ c ∈ e.value, c ≠ 0) (hp : 0 < p) {line : List UInt8}
    (hline : StringAt mem p line) (hfit : line.length ≤ 100) :
    StringAt (replace envs mem p).1 p (expand (allValues envs) line) := by
  unfold replace
  rw [rawCopy_eq hline hfit]
  have hstart : Spelled mem p [] := ⟨fun i c hc => (by cases hc), fun c hc => by cases hc⟩
  exact replaceLoop_written henvs hp line.length (le_refl _) hline.nonzero 0 hstart

end Loop

/-! ### All values and the latest -/

/-- Where the pieces of one list are as long as those of another, at least, the lists are the same only if the
pieces are. -/
theorem flatMap_eq_iff {α β : Type} {f g : α → List β} {l : List α} (hlen : ∀ a ∈ l, (g a).length ≤ (f a).length) :
    l.flatMap f = l.flatMap g ↔ ∀ a ∈ l, f a = g a := by
  refine ⟨fun h => ?_, fun h => List.flatMap_congr h⟩
  induction l with
  | nil => exact fun a ha => by cases ha
  | cons a l ih =>
    rw [List.flatMap_cons, List.flatMap_cons] at h
    have hrest : (l.flatMap g).length ≤ (l.flatMap f).length := by
      rw [List.length_flatMap, List.length_flatMap]
      exact List.sum_le_sum fun b hb => hlen b (List.mem_cons_of_mem _ hb)
    have hsum := congrArg List.length h
    rw [List.length_append, List.length_append] at hsum
    have hhead := hlen a (List.mem_cons_self ..)
    obtain ⟨hfirst, hothers⟩ := List.append_inj h (by omega)
    intro b hb
    rcases List.mem_cons.mp hb with rfl | hb
    · exact hfirst
    · exact ih (fun b hb => hlen b (List.mem_cons_of_mem _ hb)) hothers b hb

/-- The latest value is the end of all values, and all of it if the other ones are empty. -/
theorem allValues_latest (envs : List Env) (name : List UInt8) :
    allValues envs name = ((bindings envs name).dropLast.flatMap (·.value)) ++ latest envs name := by
  unfold allValues latest
  cases h : (bindings envs name).getLast? with
  | none =>
    rw [List.getLast?_eq_none_iff] at h
    rw [h]
    rfl
  | some e =>
    have hsplit := List.dropLast_append_getLast? e h
    rw [← hsplit, List.flatMap_append, List.dropLast_concat]
    simp

theorem allValues_eq_iff (envs : List Env) (name : List UInt8) :
    allValues envs name = latest envs name ↔ ∀ e ∈ (bindings envs name).dropLast, e.value = [] := by
  rw [allValues_latest]
  constructor
  · intro h
    exact List.flatMap_eq_nil_iff.mp (List.append_left_eq_self.mp h)
  · intro h
    rw [List.flatMap_eq_nil_iff.mpr h, List.nil_append]

/-- **Variables expand to their latest value** if and only if the earlier values of each variable of the line are all
empty. -/
theorem replace_latest_iff {args : List (List UInt8)} (hargs : ∀ a ∈ args, ∀ c ∈ a, c ≠ 0) {envs : List Env}
    (haccepted : exportAll args [embedded] = some envs) {mem : Nat → UInt8} {p : Nat} (hp : 0 < p) {line : List UInt8}
    (hline : StringAt mem p line) (hfit : line.length < 100) :
    StringAt (replace envs mem p).1 p (expand (latest (exported args)) line) ↔
      ∀ name, .var name ∈ piecesOf line.length line → ∀ e ∈ (bindings (exported args) name).dropLast, e.value = [] := by
  have henvs : envs = exported args := exportAll_eq haccepted
  have hvalues : ∀ e ∈ exported args, ∀ c ∈ e.value, c ≠ 0 := by
    intro e he c hc
    rcases List.mem_cons.mp he with rfl | he
    · revert hc
      revert c
      decide +kernel
    · obtain ⟨a, ha, hg⟩ := List.mem_filterMap.mp he
      exact hargs a ha c (given_value hg c hc)
  rw [henvs]
  have hwritten := replace_written hvalues hp hline hfit.le
  have hsame : StringAt (replace (exported args) mem p).1 p (expand (latest (exported args)) line) ↔
      expand (allValues (exported args)) line = expand (latest (exported args)) line :=
    ⟨fun h => hwritten.unique h, fun h => by rw [← h]; exact hwritten⟩
  rw [hsame]
  unfold expand
  rw [flatMap_eq_iff]
  · refine ⟨fun h name hname => (allValues_eq_iff _ name).mp (h _ hname), fun h a ha => ?_⟩
    cases a with
    | char c => rfl
    | var name => exact (allValues_eq_iff _ name).mpr (h name ha)
  · intro a _
    cases a with
    | char c => exact le_refl _
    | var name =>
      show (latest (exported args) name).length ≤ (allValues (exported args) name).length
      rw [allValues_latest, List.length_append]
      exact Nat.le_add_left _ _

/-! ### Lines -/

/-- `A=x`, `A=y/`, and the line that asks for it. -/
def bindX : List UInt8 := [65, 61, 120]
def bindY : List UInt8 := [65, 61, 121, 47]
def askA : List UInt8 := [36, 65, 10]

/-- A line at address 1. -/
def lineAt (line : List UInt8) (a : Nat) : UInt8 := line.getD (a - 1) 0

theorem stringAt_lineAt {line : List UInt8} (h : ∀ c ∈ line, c ≠ 0) : StringAt (lineAt line) 1 line := by
  refine ⟨fun i c hc => ?_, ?_, h⟩
  · unfold lineAt
    rw [Nat.add_sub_cancel_left, List.getD_eq_getElem?_getD, hc]
    rfl
  · unfold lineAt
    rw [Nat.add_sub_cancel_left, List.getD_eq_getElem?_getD, List.getElem?_eq_none (le_refl _)]
    rfl

/-- Two bindings of one name are both put into the line. -/
theorem not_replace_latest : ¬ ∀ (args : List (List UInt8)) (envs : List Env) (mem : Nat → UInt8) (p : Nat) (line : List UInt8),
    (∀ a ∈ args, ∀ c ∈ a, c ≠ 0) → exportAll args [embedded] = some envs → 0 < p → StringAt mem p line → line.length < 100 →
      StringAt (replace envs mem p).1 p (expand (latest (exported args)) line) := by
  intro h
  have hline : StringAt (lineAt askA) 1 askA := stringAt_lineAt (by decide +kernel)
  have hlatest := h [bindX, bindY] _ (lineAt askA) 1 askA (by decide +kernel) rfl Nat.one_pos hline (by decide +kernel)
  have hvalues : ∀ e ∈ exported [bindX, bindY], ∀ c ∈ e.value, c ≠ 0 := by decide +kernel
  have hall := replace_written hvalues Nat.one_pos hline (by decide +kernel)
  have hsame := hlatest.unique hall
  revert hsame
  decide +kernel

theorem replace_latest_bindY : ∃ mem : Nat → UInt8,
    StringAt (replace [embedded, ⟨[65], [121]⟩] mem 1).1 1 (expand (latest (exported [bindY])) askA) := by
  have hargs : ∀ a ∈ [bindY], ∀ c ∈ a, c ≠ 0 := by decide +kernel
  refine ⟨lineAt askA, (replace_latest_iff hargs rfl Nat.one_pos (stringAt_lineAt (by decide +kernel)) (by decide +kernel)).mpr ?_⟩
  intro name hname
  have hA : name = [65] := by
    have hpieces : piecesOf askA.length askA = [.var [65], .char 10] := by decide +kernel
    rw [hpieces] at hname
    rcases List.mem_cons.mp hname with he | hmem
    · cases he
      rfl
    · rcases List.mem_cons.mp hmem with he | hmem
      · cases he
      · cases hmem
  rw [hA]
  decide +kernel

end Farron
