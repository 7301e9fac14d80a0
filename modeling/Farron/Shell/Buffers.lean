import Farron.Shell.Grammar

/-! The arrays of the shell, from `user/sh.c`.

The same functions as in `Shell.Variables`, with a look at each access whether it is inside its array: a result is
`none` where one is not. The line buffer has 100 bytes, and `getcmd` and the parser leave a zero in its last one; the
other arrays are `name` with 32 bytes, `value` with 96, `raw` with 100 and `env_cmd` with 64. For each
function that is followed by the condition under which it stays inside. -/
namespace Farron.Sh
open Strings

/-- The line buffer is from address 1 on. -/
def bufAt : Nat := 1
def bufEnd : Nat := 101

/-- `*t = c`, in the line buffer. -/
def store? (mem : Nat → UInt8) (t : Nat) (c : UInt8) : Option (Nat → UInt8) :=
  if bufAt ≤ t ∧ t < bufEnd then some (Function.update mem t c) else none

/-- The string at `p`, read in the line buffer. -/
def line? (mem : Nat → UInt8) (p : Nat) : Option (List UInt8) :=
  if bufAt ≤ p then string? mem (bufEnd - p) p else none

/-- What fits its arrays with its zeros. -/
def EnvFits (e : Env) : Prop := e.name.length < 32 ∧ e.value.length < 96

instance (e : Env) : Decidable (EnvFits e) := inferInstanceAs (Decidable (_ ∧ _))

/-- An entry of `envs`, read. -/
def readEnv? (e : Env) : Option Env := if EnvFits e then some e else none

/-! ### `replace` -/

/-- An identifier, copied to an array with `room` bytes, and what is behind it. -/
def ident? : Nat → List UInt8 → Option (List UInt8 × List UInt8)
  | 0, _ => none
  | _ + 1, [] => some ([], [])
  | room + 1, c :: s => if isIdent c = true then (ident? room s).map fun r => (c :: r.1, r.2) else some ([], c :: s)

/-- `for(; (*t = *tmp); t++, tmp++)`. -/
def copyOut? : List UInt8 → (Nat → UInt8) → Nat → Option ((Nat → UInt8) × Nat)
  | [], mem, t => (store? mem t 0).map fun mem => (mem, t)
  | c :: v, mem, t => (store? mem t c).bind fun mem => copyOut? v mem (t + 1)

/-- The loop over the table. -/
def putValues? (name : List UInt8) : List Env → (Nat → UInt8) → Nat → Option ((Nat → UInt8) × Nat)
  | [], mem, t => some (mem, t)
  | e :: envs, mem, t => do
    let e ← readEnv? e
    if name = e.name then
      let (mem, t) ← copyOut? e.value mem t
      putValues? name envs mem t
    else putValues? name envs mem t

/-- The loop of `replace`. -/
def replaceLoop? (envs : List Env) : Nat → List UInt8 → (Nat → UInt8) → Nat → Int → Option ((Nat → UInt8) × Int)
  | _, [], mem, t, n => (store? mem t 0).map fun mem => (mem, n)
  | 0, _ :: _, mem, _, n => some (mem, n)
  | fuel + 1, c :: s, mem, t, n => do
    let mem ← store? mem t c
    if c = dollar then
      if startsName s = true then
        let (name, s) ← ident? 32 s
        let (mem, t) ← putValues? name envs mem t
        -- `t--`, and the `t++` of the loop
        replaceLoop? envs fuel s mem t (n + 1)
      else replaceLoop? envs fuel s mem (t + 1) (n + 1)
    else replaceLoop? envs fuel s mem (t + 1) n

/-- `replace`; `raw` is as long as the line buffer. -/
def replace? (envs : List Env) (mem : Nat → UInt8) : Option ((Nat → UInt8) × Int) := do
  let raw ← line? mem bufAt
  replaceLoop? envs raw.length raw mem bufAt 0

/-! ### `export` -/

/-- `for(...; (*t = *s++) != '='; t++)`, with `room` bytes left at `t`: what is copied, and `s`. -/
def name? (mem : Nat → UInt8) : Nat → Nat → Option (List UInt8 × Nat)
  | 0, _ => none
  | room + 1, s =>
    if s < bufEnd then
      if mem s = equals then some ([], s + 1) else (name? mem room (s + 1)).map fun r => (mem s :: r.1, r.2)
    else none

/-- `export`, with the argument at `a`. -/
def export? (envs : List Env) (mem : Nat → UInt8) (a : Nat) : Option (Int × List Env) := do
  let arg ← line? mem a
  if arg = dashP then some (0, envs)
  else if envs.length = nenvs then some (-1, envs)
  else
    let (name, s) ← name? mem 32 a
    if checkenvname name ≠ name.length then some (-1, envs)
    else
      let value ← line? mem s
      -- the end of `value`, the byte before it, and `envs[nenv]`
      if value.length < 96 ∧ value ≠ [] ∧ envs.length < nenvs then some (0, envs ++ [⟨name, dropSlash value⟩])
      else none

/-! ### `runcmd` -/

/-- A string copied behind what is in `env_cmd`, with its zero. -/
def copyIn? : List UInt8 → List UInt8 → Option (List UInt8)
  | [], cmd => if cmd.length < 64 then some cmd else none
  | c :: s, cmd => if cmd.length < 64 then copyIn? s (cmd ++ [c]) else none

/-- The path that is tried for a value. -/
def envCmd? (value argv0 : List UInt8) : Option (List UInt8) := do
  let cmd ← copyIn? value []
  -- over the zero
  if cmd.length < 64 then copyIn? argv0 (cmd ++ [slash]) else none

/-- Which of its calls a command sees succeed: for each of them, numbered from 0 on, and for each command in it, numbered
behind them. -/
abbrev Answers : Type := List Nat → Bool

def Answers.sub (w : Answers) (k : Nat) : Answers := fun p => w (k :: p)

/-- The search loop; `found` tells where `exec` does not return. -/
def search? (argv0 : List UInt8) : List Env → (Nat → Bool) → Option Unit
  | [], _ => some ()
  | e :: envs, found => do
    let e ← readEnv? e
    let _ ← envCmd? e.value argv0
    if found 0 = true then some () else search? argv0 envs fun i => found (i + 1)

/-- `runcmd`, and what it forks. -/
def runcmd? (envs : List Env) (mem : Nat → UInt8) : Answers → Cmd → Option Unit
  | _, .execcmd [] => some ()
  | w, .execcmd ((q, _) :: _) =>
    if w [0] = true then some ()
    else do
      let argv0 ← line? mem q
      search? argv0 envs fun i => w [i + 1]
  | w, .redircmd cmd _ _ _ _ => if w [0] = true then runcmd? envs mem (w.sub 1) cmd else some ()
  | w, .listcmd left right =>
    if w [0] = true then do
      runcmd? envs mem (w.sub 1) left
      runcmd? envs mem (w.sub 2) right
    else some ()
  | w, .pipecmd left right =>
    if w [0] = true then
      if w [1] = true then do
        runcmd? envs mem (w.sub 3) left
        if w [2] = true then runcmd? envs mem (w.sub 4) right else some ()
      else some ()
    else some ()
  | w, .backcmd cmd => if w [0] = true then runcmd? envs mem (w.sub 1) cmd else some ()

/-! ### Staying inside -/

section Inside
variable {envs : List Env} {mem : Nat → UInt8} {s : List UInt8} {t : Nat}

theorem store?_eq_some_iff {c : UInt8} {mem' : Nat → UInt8} (ht : bufAt ≤ t) :
    store? mem t c = some mem' ↔ t < bufEnd ∧ Function.update mem t c = mem' := by
  unfold store?
  by_cases hlt : t < bufEnd <;> simp [ht, hlt]

theorem line?_eq_some_iff {p : Nat} (hp : bufAt ≤ p) : line? mem p = some s ↔ StringAt mem p s ∧ p + s.length < bufEnd := by
  unfold line?
  rw [if_pos hp, string?_eq_some_iff]
  exact and_congr_right fun _ => by omega

theorem readEnv?_of_fits {e : Env} (h : EnvFits e) : readEnv? e = some e := if_pos h

theorem ident?_eq_some_iff {room : Nat} {r : List UInt8 × List UInt8} :
    ident? room s = some r ↔ (s.takeWhile isIdent).length < room ∧ (s.takeWhile isIdent, s.dropWhile isIdent) = r := by
  induction room generalizing s r with
  | zero => simp [ident?]
  | succ room ih =>
    cases s with
    | nil => simp [ident?]
    | cons c s =>
      rw [ident?]
      by_cases hc : isIdent c = true
      · rw [if_pos hc, List.takeWhile_cons_of_pos hc, List.dropWhile_cons_of_pos hc, Option.map_eq_some_iff]
        simp only [ih, List.length_cons, Nat.succ_lt_succ_iff]
        constructor
        · rintro ⟨_, ⟨hlt, rfl⟩, rfl⟩
          exact ⟨hlt, rfl⟩
        · rintro ⟨hlt, rfl⟩
          exact ⟨_, ⟨hlt, rfl⟩, rfl⟩
      · rw [if_neg hc, List.takeWhile_cons_of_neg hc, List.dropWhile_cons_of_neg hc]
        simp

theorem copyOut_snd (v : List UInt8) (mem : Nat → UInt8) (t : Nat) : (copyOut v mem t).2 = t + v.length := by
  induction v generalizing mem t with
  | nil => rfl
  | cons c v ih =>
    rw [copyOut, ih, List.length_cons]
    omega

theorem copyOut?_eq_some_iff {v : List UInt8} {r : (Nat → UInt8) × Nat} (ht : bufAt ≤ t) :
    copyOut? v mem t = some r ↔ t + v.length < bufEnd ∧ copyOut v mem t = r := by
  induction v generalizing mem t with
  | nil =>
    simp only [copyOut?, copyOut, Option.map_eq_some_iff, store?_eq_some_iff ht, List.length_nil, Nat.add_zero]
    constructor
    · rintro ⟨_, ⟨hlt, rfl⟩, rfl⟩
      exact ⟨hlt, rfl⟩
    · rintro ⟨hlt, rfl⟩
      exact ⟨_, ⟨hlt, rfl⟩, rfl⟩
  | cons c v ih =>
    simp only [copyOut?, copyOut, Option.bind_eq_some_iff, store?_eq_some_iff ht, List.length_cons]
    constructor
    · rintro ⟨_, ⟨_, rfl⟩, hrest⟩
      obtain ⟨hlt, hr⟩ := (ih (Nat.le_succ_of_le ht)).mp hrest
      exact ⟨by omega, hr⟩
    · rintro ⟨hlt, hr⟩
      exact ⟨_, ⟨by omega, rfl⟩, (ih (Nat.le_succ_of_le ht)).mpr ⟨by omega, hr⟩⟩

theorem allValues_cons_eq (e : Env) (envs : List Env) : allValues (e :: envs) e.name = e.value ++ allValues envs e.name := by
  simp [allValues, bindings]

theorem allValues_cons_ne {e : Env} {name : List UInt8} (h : name ≠ e.name) (envs : List Env) :
    allValues (e :: envs) name = allValues envs name := by
  simp [allValues, bindings, h]

theorem putValues_snd (name : List UInt8) (envs : List Env) (mem : Nat → UInt8) (t : Nat) :
    (putValues name envs mem t).2 = t + (allValues envs name).length := by
  induction envs generalizing mem t with
  | nil => rfl
  | cons e envs ih =>
    rw [putValues]
    by_cases hname : name = e.name
    · subst hname
      rw [if_pos rfl, ih, copyOut_snd, allValues_cons_eq, List.length_append]
      omega
    · rw [if_neg hname, ih, allValues_cons_ne hname]

theorem putValues?_eq_some_iff {name : List UInt8} {r : (Nat → UInt8) × Nat} (hfits : ∀ e ∈ envs, EnvFits e) (ht : bufAt ≤ t)
    (hlt : t < bufEnd) :
    putValues? name envs mem t = some r ↔ t + (allValues envs name).length < bufEnd ∧ putValues name envs mem t = r := by
  induction envs generalizing mem t with
  | nil => simp [putValues?, putValues, allValues, bindings, hlt]
  | cons e envs ih =>
    have hrest : ∀ e ∈ envs, EnvFits e := fun e' he => hfits e' (List.mem_cons_of_mem _ he)
    rw [putValues?, readEnv?_of_fits (hfits e (List.mem_cons_self ..)), putValues]
    show (if _ then _ else _) = _ ↔ _
    by_cases hname : name = e.name
    · subst hname
      rw [if_pos rfl, if_pos rfl, allValues_cons_eq, List.length_append]
      constructor
      · intro h
        obtain ⟨⟨mem', t'⟩, hcopy, hput⟩ := Option.bind_eq_some_iff.mp h
        obtain ⟨hin, hcopy⟩ := (copyOut?_eq_some_iff ht).mp hcopy
        have ht' := copyOut_snd e.value mem t
        rw [hcopy] at ht' ⊢
        simp only at ht' hput
        subst ht'
        obtain ⟨hall, hr⟩ := (ih hrest (by omega) hin).mp hput
        exact ⟨by omega, hr⟩
      · rintro ⟨hin, hr⟩
        have hcopy : copyOut? e.value mem t = some (copyOut e.value mem t) := (copyOut?_eq_some_iff ht).mpr ⟨by omega, rfl⟩
        have ht' := copyOut_snd e.value mem t
        refine Option.bind_eq_some_iff.mpr ⟨_, hcopy, ?_⟩
        exact (ih hrest (by omega) (by omega)).mpr ⟨by omega, hr⟩
    · rw [if_neg hname, if_neg hname, allValues_cons_ne hname]
      exact ih hrest ht hlt

/-- How long the line becomes. -/
def expandedLength (envs : List Env) (pieces : List Piece) : Nat := (pieces.flatMap (Piece.text (allValues envs))).length

/-- The names of the variables fit `name`. -/
def NamesFit (pieces : List Piece) : Prop := ∀ name, .var name ∈ pieces → name.length < 32

@[simp] theorem expandedLength_nil : expandedLength envs [] = 0 := rfl

@[simp] theorem expandedLength_char (c : UInt8) (pieces : List Piece) :
    expandedLength envs (.char c :: pieces) = 1 + expandedLength envs pieces := by
  simp [expandedLength, Piece.text, Nat.add_comm]

@[simp] theorem expandedLength_var (name : List UInt8) (pieces : List Piece) :
    expandedLength envs (.var name :: pieces) = (allValues envs name).length + expandedLength envs pieces := by
  simp [expandedLength, Piece.text]

@[simp] theorem namesFit_char {c : UInt8} {pieces : List Piece} : NamesFit (.char c :: pieces) ↔ NamesFit pieces := by
  simp [NamesFit]

@[simp] theorem namesFit_var {name : List UInt8} {pieces : List Piece} :
    NamesFit (.var name :: pieces) ↔ name.length < 32 ∧ NamesFit pieces := by
  simp [NamesFit]

theorem replaceLoop?_nil (ht : bufAt ≤ t) {fuel : Nat} {n : Int} {r : (Nat → UInt8) × Int} :
    replaceLoop? envs fuel [] mem t n = some r ↔
      NamesFit [] ∧ t + expandedLength envs [] < bufEnd ∧ replaceLoop envs fuel [] mem t n = r := by
  simp only [replaceLoop?, replaceLoop, Option.map_eq_some_iff, store?_eq_some_iff ht, expandedLength_nil, Nat.add_zero]
  constructor
  · rintro ⟨_, ⟨hlt, rfl⟩, rfl⟩
    exact ⟨by simp [NamesFit], hlt, rfl⟩
  · rintro ⟨-, hlt, rfl⟩
    exact ⟨_, ⟨hlt, rfl⟩, rfl⟩

/-- **`replace` stays inside** if and only if the names fit, and the expansion fits the line buffer. -/
theorem replaceLoop?_eq_some_iff (hfits : ∀ e ∈ envs, EnvFits e) {fuel : Nat} (hfuel : s.length ≤ fuel) (ht : bufAt ≤ t) {n : Int}
    {r : (Nat → UInt8) × Int} :
    replaceLoop? envs fuel s mem t n = some r ↔
      NamesFit (piecesOf fuel s) ∧ t + expandedLength envs (piecesOf fuel s) < bufEnd ∧ replaceLoop envs fuel s mem t n = r := by
  induction fuel generalizing s mem t n with
  | zero =>
    rw [List.length_eq_zero_iff.mp (Nat.le_zero.mp hfuel)]
    exact replaceLoop?_nil ht
  | succ fuel ih =>
    cases s with
    | nil => exact replaceLoop?_nil ht
    | cons c s =>
      have hrest : s.length ≤ fuel := Nat.le_of_succ_le_succ hfuel
      have hstore : ∀ f, (store? mem t c).bind f = some r ↔ t < bufEnd ∧ f (Function.update mem t c) = some r := by
        intro f
        simp only [Option.bind_eq_some_iff, store?_eq_some_iff ht, and_assoc, exists_and_left, exists_eq_left']
      have hchar : ∀ n, t < bufEnd ∧ replaceLoop? envs fuel s (Function.update mem t c) (t + 1) n = some r ↔
          NamesFit (.char c :: piecesOf fuel s) ∧ t + expandedLength envs (.char c :: piecesOf fuel s) < bufEnd ∧
            replaceLoop envs fuel s (Function.update mem t c) (t + 1) n = r := by
        intro n
        rw [ih hrest (Nat.le_succ_of_le ht), namesFit_char, expandedLength_char, ← Nat.add_assoc]
        constructor
        · exact fun h => h.2
        · exact fun h => ⟨by omega, h⟩
      rw [replaceLoop?, replaceLoop, piecesOf]
      show (store? mem t c).bind _ = _ ↔ _
      rw [hstore]
      by_cases hdollar : c = dollar
      · by_cases hname : startsName s = true
        · rw [if_pos hdollar, if_pos hname, if_pos hdollar, if_pos hname, if_pos ⟨hdollar, hname⟩, namesFit_var, expandedLength_var]
          have hput := putValues_snd (s.takeWhile isIdent) envs (Function.update mem t c) t
          have hback : (putValues (s.takeWhile isIdent) envs (Function.update mem t c) t).2 - 1 + 1 =
              (putValues (s.takeWhile isIdent) envs (Function.update mem t c) t).2 := by
            have hpos : 0 < t := ht
            omega
          have hdrop : (s.dropWhile isIdent).length ≤ fuel := (List.dropWhile_sublist _).length_le.trans hrest
          rw [hback, hput]
          constructor
          · rintro ⟨hlt, h⟩
            obtain ⟨_, hident, h⟩ := Option.bind_eq_some_iff.mp h
            obtain ⟨hroom, rfl⟩ := ident?_eq_some_iff.mp hident
            obtain ⟨_, hvalues, h⟩ := Option.bind_eq_some_iff.mp h
            obtain ⟨hin, rfl⟩ := (putValues?_eq_some_iff hfits ht hlt).mp hvalues
            obtain ⟨hnames, hall, hr⟩ := (ih hdrop (by omega)).mp h
            rw [hput] at hall hr
            exact ⟨⟨hroom, hnames⟩, by omega, hr⟩
          · rintro ⟨⟨hroom, hnames⟩, hall, hr⟩
            have hlt : t < bufEnd := by omega
            refine ⟨hlt, Option.bind_eq_some_iff.mpr ⟨_, ident?_eq_some_iff.mpr ⟨hroom, rfl⟩, ?_⟩⟩
            refine Option.bind_eq_some_iff.mpr ⟨_, (putValues?_eq_some_iff hfits ht hlt).mpr ⟨by omega, rfl⟩, ?_⟩
            refine (ih hdrop (by omega)).mpr ⟨hnames, ?_, ?_⟩
            · rw [hput]
              omega
            · rw [hput]
              exact hr
        · rw [if_pos hdollar, if_neg hname, if_pos hdollar, if_neg hname, if_neg fun h => hname h.2]
          exact hchar (n + 1)
      · rw [if_neg hdollar, if_neg hdollar, if_neg fun h => hdollar h.1]
        exact hchar n

theorem replace?_eq_some_iff (hfits : ∀ e ∈ envs, EnvFits e) {line : List UInt8} (hline : StringAt mem bufAt line)
    (hlen : line.length < 100) {r : (Nat → UInt8) × Int} :
    replace? envs mem = some r ↔
      NamesFit (piecesOf line.length line) ∧ (expand (allValues envs) line).length < 100 ∧ replace envs mem bufAt = r := by
  have hraw : line? mem bufAt = some line := (line?_eq_some_iff (le_refl _)).mpr ⟨hline, by unfold bufAt bufEnd; omega⟩
  have hlength : bufAt + expandedLength envs (piecesOf line.length line) < bufEnd ↔ (expand (allValues envs) line).length < 100 := by
    unfold expandedLength expand bufAt bufEnd
    omega
  unfold replace? replace
  rw [rawCopy_eq hline hlen.le, hraw, ← hlength]
  exact replaceLoop?_eq_some_iff hfits (le_refl _) (le_refl _)

/-! ### What stands behind the line -/

theorem copyOut_behind (v : List UInt8) {a : Nat} (ha : t + v.length < a) : (copyOut v mem t).1 a = mem a := by
  induction v generalizing mem t with
  | nil => exact Function.update_of_ne (by rw [List.length_nil] at ha; omega) ..
  | cons c v ih =>
    rw [List.length_cons] at ha
    rw [copyOut, ih (by omega), Function.update_of_ne (by omega)]

theorem putValues_behind (name : List UInt8) {a : Nat} (ha : t + (allValues envs name).length < a) :
    (putValues name envs mem t).1 a = mem a := by
  induction envs generalizing mem t with
  | nil => rfl
  | cons e envs ih =>
    rw [putValues]
    by_cases hname : name = e.name
    · subst hname
      rw [allValues_cons_eq, List.length_append] at ha
      rw [if_pos rfl, ih (by rw [copyOut_snd]; omega), copyOut_behind _ (by omega)]
    · rw [allValues_cons_ne hname] at ha
      rw [if_neg hname, ih ha]

theorem replaceLoop_behind {fuel : Nat} (ht : bufAt ≤ t) {n : Int} {a : Nat} (ha : t + expandedLength envs (piecesOf fuel s) < a) :
    (replaceLoop envs fuel s mem t n).1 a = mem a := by
  induction fuel generalizing s mem t n with
  | zero =>
    cases s with
    | nil => exact Function.update_of_ne (by omega) ..
    | cons c s => rfl
  | succ fuel ih =>
    cases s with
    | nil => exact Function.update_of_ne (by omega) ..
    | cons c s =>
      rw [piecesOf] at ha
      rw [replaceLoop]
      have hchar : ∀ n, t + expandedLength envs (.char c :: piecesOf fuel s) < a →
          (replaceLoop envs fuel s (Function.update mem t c) (t + 1) n).1 a = mem a := by
        intro n ha
        rw [expandedLength_char] at ha
        rw [ih (Nat.le_succ_of_le ht) (by omega), Function.update_of_ne (by omega)]
      by_cases hdollar : c = dollar
      · by_cases hname : startsName s = true
        · rw [if_pos ⟨hdollar, hname⟩, expandedLength_var] at ha
          rw [if_pos hdollar, if_pos hname]
          have hput := putValues_snd (s.takeWhile isIdent) envs (Function.update mem t c) t
          have hpos : 0 < t := ht
          rw [ih (by unfold bufAt; omega) (by omega), putValues_behind _ (by omega), Function.update_of_ne (by omega)]
        · rw [if_neg fun h => hname h.2] at ha
          rw [if_pos hdollar, if_neg hname]
          exact hchar _ ha
      · rw [if_neg fun h => hdollar h.1] at ha
        rw [if_neg hdollar]
        exact hchar _ ha

/-- The last byte of the line buffer stays zero. -/
theorem replace_last (hvalues : ∀ e ∈ envs, ∀ c ∈ e.value, c ≠ 0) {line : List UInt8} (hline : StringAt mem bufAt line)
    (hlen : line.length < 100) (hexpand : (expand (allValues envs) line).length < 100) (hlast : mem 100 = 0) :
    (replace envs mem bufAt).1 100 = 0 := by
  have hwritten := replace_written hvalues (p := bufAt) Nat.one_pos hline hlen.le
  by_cases hfull : (expand (allValues envs) line).length = 99
  · have hnul := hwritten.nul
    rwa [hfull] at hnul
  · unfold replace
    rw [rawCopy_eq hline hlen.le, replaceLoop_behind (le_refl _), hlast]
    unfold expandedLength expand at *
    unfold bufAt
    omega

/-! ### The name and the value -/

/-- The `k` bytes at `a`. -/
def bytes (mem : Nat → UInt8) (a k : Nat) : List UInt8 := (List.range k).map fun j => mem (a + j)

/-- The first `=` from `a` on is `k` bytes further. -/
def FirstEquals (mem : Nat → UInt8) (a k : Nat) : Prop := mem (a + k) = equals ∧ ∀ j, j < k → mem (a + j) ≠ equals

theorem bytes_succ (mem : Nat → UInt8) (a k : Nat) : bytes mem a (k + 1) = mem a :: bytes mem (a + 1) k := by
  unfold bytes
  rw [List.range_succ_eq_map, List.map_cons, List.map_map]
  congr 1
  apply List.map_congr_left
  intro j _
  rw [Function.comp_apply, Nat.succ_eq_add_one]
  congr 1
  omega

@[simp] theorem length_bytes (mem : Nat → UInt8) (a k : Nat) : (bytes mem a k).length = k := by simp [bytes]

theorem firstEquals_succ {a k : Nat} (ha : mem a ≠ equals) : FirstEquals mem a (k + 1) ↔ FirstEquals mem (a + 1) k := by
  unfold FirstEquals
  rw [Nat.add_right_comm a 1 k, Nat.add_assoc]
  refine and_congr_right fun _ => ⟨fun h j hj => ?_, fun h j hj => ?_⟩
  · rw [Nat.add_right_comm]
    exact h (j + 1) (Nat.succ_lt_succ hj)
  · cases j with
    | zero => exact ha
    | succ j =>
      have hnext := h j (Nat.lt_of_succ_lt_succ hj)
      rwa [Nat.add_right_comm] at hnext

theorem name?_eq_some_iff {room a : Nat} {r : List UInt8 × Nat} :
    name? mem room a = some r ↔ ∃ k, k < room ∧ a + k < bufEnd ∧ FirstEquals mem a k ∧ (bytes mem a k, a + k + 1) = r := by
  induction room generalizing a r with
  | zero => simp [name?]
  | succ room ih =>
    rw [name?]
    by_cases hin : a < bufEnd
    · rw [if_pos hin]
      by_cases heq : mem a = equals
      · rw [if_pos heq, Option.some.injEq]
        constructor
        · intro hr
          exact ⟨0, Nat.succ_pos _, hin, ⟨heq, fun j hj => by omega⟩, hr⟩
        · rintro ⟨k, -, -, hfirst, hr⟩
          cases k with
          | zero => exact hr
          | succ k => exact absurd heq (hfirst.2 0 (Nat.succ_pos k))
      · rw [if_neg heq, Option.map_eq_some_iff]
        constructor
        · rintro ⟨_, hname, rfl⟩
          obtain ⟨k, hk, hak, hfirst, rfl⟩ := ih.mp hname
          refine ⟨k + 1, Nat.succ_lt_succ hk, by omega, (firstEquals_succ heq).mpr hfirst, ?_⟩
          rw [bytes_succ, Nat.add_right_comm a 1 k, Nat.add_assoc a k 1]
        · rintro ⟨k, hk, hak, hfirst, rfl⟩
          cases k with
          | zero => exact absurd hfirst.1 heq
          | succ k =>
            refine ⟨_, ih.mpr ⟨k, Nat.lt_of_succ_lt_succ hk, by omega, (firstEquals_succ heq).mp hfirst, rfl⟩, ?_⟩
            rw [bytes_succ, Nat.add_right_comm a 1 k, Nat.add_assoc a k 1]
    · rw [if_neg hin]
      constructor
      · exact fun h => by cases h
      · rintro ⟨k, -, hak, -⟩
        omega

/-! ### The path -/

theorem copyIn?_eq_some_iff {cmd r : List UInt8} : copyIn? s cmd = some r ↔ cmd.length + s.length < 64 ∧ cmd ++ s = r := by
  induction s generalizing cmd with
  | nil => simp [copyIn?]
  | cons c s ih =>
    rw [copyIn?]
    by_cases hlt : cmd.length < 64
    · rw [if_pos hlt, ih]
      simp only [List.length_append, List.length_cons, List.length_nil, List.append_assoc, List.singleton_append]
      exact and_congr_left fun _ => by omega
    · rw [if_neg hlt]
      simp only [reduceCtorEq, false_iff, not_and]
      omega

/-- A path is right, if it fits. -/
theorem envCmd?_eq_some_iff {value argv0 r : List UInt8} :
    envCmd? value argv0 = some r ↔ value.length + 1 + argv0.length < 64 ∧ value ++ slash :: argv0 = r := by
  unfold envCmd?
  constructor
  · intro h
    obtain ⟨_, hvalue, h⟩ := Option.bind_eq_some_iff.mp h
    obtain ⟨hlt, rfl⟩ := copyIn?_eq_some_iff.mp hvalue
    rw [if_pos (by simpa using hlt)] at h
    obtain ⟨hall, rfl⟩ := copyIn?_eq_some_iff.mp h
    exact ⟨by simpa using hall, by simp⟩
  · rintro ⟨hlt, rfl⟩
    refine Option.bind_eq_some_iff.mpr ⟨value, copyIn?_eq_some_iff.mpr ⟨by simp; omega, by simp⟩, ?_⟩
    rw [if_pos (by omega)]
    exact copyIn?_eq_some_iff.mpr ⟨by simpa using hlt, by simp⟩

end Inside

end Farron.Sh
