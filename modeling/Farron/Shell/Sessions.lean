import Farron.Shell.Buffers

/-! Sessions of the shell, from `user/sh.c`.

A session is a run of the loop of `main`, with the lines it reads and what the calls of the kernel come to, in the steps
that matter here: a line is read, `replace` goes over it, it is parsed, and then `export` or `runcmd` has it. None of
these checks a size, so a step leaves an array, or takes an argument it was to reject, if and only if the condition
`Fits` on the state before it fails (`shell_buffers`). -/
namespace Farron.Sh
open Strings

/-! ### The loop of `main` -/

/-- What comes next. -/
inductive Phase
  | prompt
  /-- A line is in the buffer, and `replace` comes next. -/
  | given
  | replaced
  /-- `export`, with its argument at an address. -/
  | exporting (a : Nat)
  | running (cmd : Cmd)
  | exited

structure Shell where
  envs : List Env
  mem : Nat → UInt8
  phase : Phase

/-- A line that is read, and what the calls come to; `gets` stores 99 characters at most. -/
structure Input where
  line : {line : List UInt8 // line.length ≤ 99}
  answers : Answers

/-- `export`. -/
def exportName : List UInt8 := [101, 120, 112, 111, 114, 116]

/-- `buf[0] == 'c' && buf[1] == 'd' && buf[2] == ' '`. -/
def isCd (mem : Nat → UInt8) : Bool := mem bufAt = 99 ∧ mem (bufAt + 1) = 100 ∧ mem (bufAt + 2) = 32

/-- What `main` does with a command; other commands start with a pointer to a structure, which is no such string. -/
def dispatch? (mem : Nat → UInt8) : Cmd → Option Phase
  | .execcmd [] => some .prompt
  | .execcmd ((q, eq) :: args) => do
    let argv0 ← line? mem q
    if argv0 = exportName then
      match args with
      -- the usage
      | [] => some .prompt
      | (a, _) :: _ => some (.exporting a)
    else some (.running (.execcmd ((q, eq) :: args)))
  | cmd => some (.running cmd)

namespace Shell

/-- A step; there is none if an access is outside its array. -/
def step? (i : Input) (s : Shell) : Option Shell :=
  match s.phase with
  | .prompt => some { s with mem := lineAt i.line, phase := if lineAt i.line bufAt = 0 then .exited else .given }
  | .given => (replace? s.envs s.mem).map fun r => { s with mem := r.1, phase := .replaced }
  | .replaced =>
    if isCd s.mem = true then
      -- the newline is chopped off
      (line? s.mem bufAt).map fun line => { s with mem := Function.update s.mem (bufAt + line.length - 1) 0, phase := .prompt }
    else
      match parsecmd 400 s.mem bufAt with
      | none => none
      | some (.error _) => some { s with phase := .exited }
      | some (.ok (cmd, mem)) => (dispatch? mem cmd).map fun phase => { s with mem := mem, phase := phase }
  | .exporting a => (export? s.envs s.mem a).map fun r => { s with envs := r.2, phase := .prompt }
  | .running cmd =>
    if i.answers [] = true then (runcmd? s.envs s.mem i.answers cmd).map fun _ => { s with phase := .prompt }
    else some { s with phase := .exited }
  | .exited => some s

/-- The shell when it has put in the embedded variable. -/
def boot : Shell := ⟨[embedded], fun _ => 0, .prompt⟩

/-- A run of steps. -/
def run? : List Input → Shell → Option Shell
  | [], s => some s
  | i :: is, s => (step? i s).bind (run? is)

end Shell

/-! ### What is meant -/

/-- A name of a variable. -/
def IsName : List UInt8 → Prop
  | [] => False
  | c :: s => isStart c = true ∧ ∀ d ∈ s, isIdent d = true

/-- An argument that is no assignment, or does not fit an entry. -/
def BadArg (arg : List UInt8) : Prop :=
  equals ∉ arg ∨ ¬ IsName (arg.takeWhile (· ≠ equals)) ∨ 32 ≤ (arg.takeWhile (· ≠ equals)).length ∨
    96 ≤ ((arg.dropWhile (· ≠ equals)).drop 1).length

/-- The next step stays inside the arrays, and an `export` rejects what it is to reject. -/
structure Meets (i : Input) (s : Shell) : Prop where
  inside : (s.step? i).isSome
  rejects : ∀ a arg, s.phase = .exporting a → StringAt s.mem a arg → arg ≠ dashP → BadArg arg →
    export? s.envs s.mem a = some (-1, s.envs)

/-- `runcmd` comes to look for a command in a directory: it runs it, `exec` fails on it, and on the directories before. -/
inductive Tries (envs : List Env) (mem : Nat → UInt8) : Answers → Cmd → List UInt8 → List UInt8 → Prop
  | exec {w : Answers} {q eq i : Nat} {argv : List (Nat × Nat)} {argv0 : List UInt8} {e : Env} (hexec : w [0] = false)
      (hargv : StringAt mem q argv0) (he : envs[i]? = some e) (hbefore : ∀ j, j < i → w [j + 1] = false) :
      Tries envs mem w (.execcmd ((q, eq) :: argv)) e.value argv0
  | redir {w : Answers} {cmd : Cmd} {file efile mode fd : Nat} {v c : List UInt8} (hopen : w [0] = true)
      (h : Tries envs mem (w.sub 1) cmd v c) : Tries envs mem w (.redircmd cmd file efile mode fd) v c
  | listLeft {w : Answers} {left right : Cmd} {v c : List UInt8} (hfork : w [0] = true)
      (h : Tries envs mem (w.sub 1) left v c) : Tries envs mem w (.listcmd left right) v c
  | listRight {w : Answers} {left right : Cmd} {v c : List UInt8} (hfork : w [0] = true)
      (h : Tries envs mem (w.sub 2) right v c) : Tries envs mem w (.listcmd left right) v c
  | pipeLeft {w : Answers} {left right : Cmd} {v c : List UInt8} (hpipe : w [0] = true) (hfork : w [1] = true)
      (h : Tries envs mem (w.sub 3) left v c) : Tries envs mem w (.pipecmd left right) v c
  | pipeRight {w : Answers} {left right : Cmd} {v c : List UInt8} (hpipe : w [0] = true) (hfork : w [1] = true)
      (hfork' : w [2] = true) (h : Tries envs mem (w.sub 4) right v c) : Tries envs mem w (.pipecmd left right) v c
  | back {w : Answers} {cmd : Cmd} {v c : List UInt8} (hfork : w [0] = true) (h : Tries envs mem (w.sub 1) cmd v c) :
      Tries envs mem w (.backcmd cmd) v c

/-- An `=` comes in time, not at once, and behind a name a value that fits. -/
def Assigns (mem : Nat → UInt8) (a : Nat) : Prop :=
  ∃ k, 0 < k ∧ k < 32 ∧ a + k < bufEnd ∧ FirstEquals mem a k ∧
    (checkenvname (bytes mem a k) = k → ∀ value, StringAt mem (a + k + 1) value → value ≠ [] ∧ value.length < 96)

/-- What the next step relies on. -/
def Fits (i : Input) (s : Shell) : Prop :=
  match s.phase with
  | .given => ∀ line, StringAt s.mem bufAt line →
      NamesFit (piecesOf line.length line) ∧ (expand (allValues s.envs) line).length < 100
  | .exporting a => StringAt s.mem a dashP ∨ s.envs.length = nenvs ∨ Assigns s.mem a
  | .running cmd => i.answers [] = true →
      ∀ value argv0, Tries s.envs s.mem i.answers cmd value argv0 → value.length + 1 + argv0.length < 64
  | _ => True

/-- In each state of a run, as far as it goes, `P` holds with the input that comes next. -/
def Throughout (P : Input → Shell → Prop) : List Input → Shell → Prop
  | [], _ => True
  | i :: is, s => P i s ∧ ∀ s', s.step? i = some s' → Throughout P is s'

/-! ### The search -/

section Search
variable {envs : List Env} {mem : Nat → UInt8} {argv0 : List UInt8}

theorem search?_eq_some_iff (hfits : ∀ e ∈ envs, EnvFits e) {found : Nat → Bool} :
    search? argv0 envs found = some () ↔
      ∀ i e, envs[i]? = some e → (∀ j, j < i → found j = false) → e.value.length + 1 + argv0.length < 64 := by
  induction envs generalizing found with
  | nil => simp [search?]
  | cons e envs ih =>
    have hrest : ∀ e ∈ envs, EnvFits e := fun e' he => hfits e' (List.mem_cons_of_mem _ he)
    rw [search?, readEnv?_of_fits (hfits e (List.mem_cons_self ..))]
    show (envCmd? e.value argv0).bind _ = _ ↔ _
    rw [Option.bind_eq_some_iff]
    constructor
    · rintro ⟨_, hpath, hnext⟩ i e' he hbefore
      cases i with
      | zero =>
        cases he
        exact (envCmd?_eq_some_iff.mp hpath).1
      | succ i =>
        rw [if_neg (by simp [hbefore 0 (Nat.succ_pos i)])] at hnext
        exact (ih hrest).mp hnext i e' he fun j hj => hbefore (j + 1) (Nat.succ_lt_succ hj)
    · intro h
      refine ⟨_, envCmd?_eq_some_iff.mpr ⟨h 0 e rfl fun j hj => by omega, rfl⟩, ?_⟩
      by_cases hfound : found 0 = true
      · exact if_pos hfound
      · rw [if_neg hfound]
        refine (ih hrest).mpr fun i e' he hbefore => h (i + 1) e' he fun j hj => ?_
        cases j with
        | zero => exact Bool.eq_false_iff.mpr hfound
        | succ j => exact hbefore j (Nat.lt_of_succ_lt_succ hj)

/-- Where the last byte of the buffer is zero there is a string at each address. -/
theorem exists_line? (hlast : mem 100 = 0) {p : Nat} (hp : bufAt ≤ p) (hp' : p < bufEnd) :
    ∃ s, line? mem p = some s ∧ StringAt mem p s := by
  have hin : p ≤ 100 := Nat.le_of_lt_succ hp'
  have hzero : mem (p + (100 - p)) = 0 := by rwa [Nat.add_sub_cancel' hin]
  obtain ⟨s, hs, hlen⟩ := exists_stringAt hzero
  refine ⟨s, (line?_eq_some_iff hp).mpr ⟨hs, ?_⟩, hs⟩
  unfold bufEnd
  omega

/-- The words of a command are in the line buffer. -/
def WordsIn (cmd : Cmd) : Prop := ∀ w ∈ cmd.words, bufAt ≤ w.1 ∧ w.1 < bufEnd

theorem wordsIn_append {l l' : List (Nat × Nat)} (h : ∀ w ∈ l ++ l', bufAt ≤ w.1 ∧ w.1 < bufEnd) :
    (∀ w ∈ l, bufAt ≤ w.1 ∧ w.1 < bufEnd) ∧ ∀ w ∈ l', bufAt ≤ w.1 ∧ w.1 < bufEnd :=
  List.forall_mem_append.mp h

/-- Both of two steps stay inside. -/
theorem bind_unit {x y : Option Unit} : (do x; y) = some () ↔ x = some () ∧ y = some () := by
  cases x <;> simp

/-! What each command tries. -/

theorem tries_redircmd {w : Answers} {cmd : Cmd} {file efile mode fd : Nat} {v c : List UInt8} :
    Tries envs mem w (.redircmd cmd file efile mode fd) v c ↔ w [0] = true ∧ Tries envs mem (w.sub 1) cmd v c := by
  constructor
  · intro h
    cases h with
    | redir hopen h => exact ⟨hopen, h⟩
  · exact fun h => .redir h.1 h.2

theorem tries_backcmd {w : Answers} {cmd : Cmd} {v c : List UInt8} :
    Tries envs mem w (.backcmd cmd) v c ↔ w [0] = true ∧ Tries envs mem (w.sub 1) cmd v c := by
  constructor
  · intro h
    cases h with
    | back hfork h => exact ⟨hfork, h⟩
  · exact fun h => .back h.1 h.2

theorem tries_listcmd {w : Answers} {left right : Cmd} {v c : List UInt8} :
    Tries envs mem w (.listcmd left right) v c ↔
      w [0] = true ∧ (Tries envs mem (w.sub 1) left v c ∨ Tries envs mem (w.sub 2) right v c) := by
  constructor
  · intro h
    cases h with
    | listLeft hfork h => exact ⟨hfork, .inl h⟩
    | listRight hfork h => exact ⟨hfork, .inr h⟩
  · rintro ⟨hfork, h | h⟩
    · exact .listLeft hfork h
    · exact .listRight hfork h

theorem tries_pipecmd {w : Answers} {left right : Cmd} {v c : List UInt8} :
    Tries envs mem w (.pipecmd left right) v c ↔ w [0] = true ∧ w [1] = true ∧
      (Tries envs mem (w.sub 3) left v c ∨ w [2] = true ∧ Tries envs mem (w.sub 4) right v c) := by
  constructor
  · intro h
    cases h with
    | pipeLeft hpipe hfork h => exact ⟨hpipe, hfork, .inl h⟩
    | pipeRight hpipe hfork hfork' h => exact ⟨hpipe, hfork, .inr ⟨hfork', h⟩⟩
  · rintro ⟨hpipe, hfork, h | ⟨hfork', h⟩⟩
    · exact .pipeLeft hpipe hfork h
    · exact .pipeRight hpipe hfork hfork' h

/-- A command looks for its word in the directories up to the first where it is found. -/
theorem runcmd?_execcmd (hfits : ∀ e ∈ envs, EnvFits e) (hlast : mem 100 = 0) {q eq : Nat} {argv : List (Nat × Nat)}
    (hq : bufAt ≤ q) (hq' : q < bufEnd) {w : Answers} :
    runcmd? envs mem w (.execcmd ((q, eq) :: argv)) = some () ↔
      ∀ v c, Tries envs mem w (.execcmd ((q, eq) :: argv)) v c → v.length + 1 + c.length < 64 := by
  obtain ⟨s, hline, hs⟩ := exists_line? hlast hq hq'
  rw [runcmd?]
  by_cases hexec : w [0] = true
  · rw [if_pos hexec]
    refine iff_of_true rfl fun v c h => ?_
    cases h with
    | exec hfail => exact absurd hexec (by simp [hfail])
  · rw [if_neg hexec, hline]
    show search? s envs _ = _ ↔ _
    rw [search?_eq_some_iff hfits]
    constructor
    · intro h v c htries
      cases htries with
      | exec _ hargv he hbefore =>
        rw [hargv.unique hs]
        exact h _ _ he hbefore
    · exact fun h i e he hbefore => h _ _ (.exec (Bool.eq_false_iff.mpr hexec) hs he hbefore)

/-- **`runcmd` stays inside** if and only if all paths it tries fit. -/
theorem runcmd?_eq_some_iff (hfits : ∀ e ∈ envs, EnvFits e) (hlast : mem 100 = 0) {cmd : Cmd} (hwords : WordsIn cmd) {w : Answers} :
    runcmd? envs mem w cmd = some () ↔ ∀ v c, Tries envs mem w cmd v c → v.length + 1 + c.length < 64 := by
  induction cmd generalizing w with
  | execcmd argv =>
    cases argv with
    | nil => exact iff_of_true rfl fun v c h => by cases h
    | cons word argv =>
      obtain ⟨hq, hq'⟩ := hwords word (List.mem_cons_self ..)
      exact runcmd?_execcmd hfits hlast hq hq'
  | redircmd cmd file efile mode fd ih =>
    simp only [runcmd?, tries_redircmd]
    by_cases hopen : w [0] = true
    · simp only [hopen, if_true, true_and]
      exact ih (wordsIn_append hwords).1
    · simp [hopen]
  | backcmd cmd ih =>
    simp only [runcmd?, tries_backcmd]
    by_cases hfork : w [0] = true
    · simp only [hfork, if_true, true_and]
      exact ih hwords
    · simp [hfork]
  | listcmd left right ihl ihr =>
    obtain ⟨hl, hr⟩ := wordsIn_append hwords
    simp only [runcmd?, tries_listcmd]
    by_cases hfork : w [0] = true
    · simp only [hfork, if_true, true_and, or_imp, forall_and]
      rw [← ihl hl, ← ihr hr]
      exact bind_unit
    · simp [hfork]
  | pipecmd left right ihl ihr =>
    obtain ⟨hl, hr⟩ := wordsIn_append hwords
    simp only [runcmd?, tries_pipecmd]
    by_cases hpipe : w [0] = true
    · by_cases hfork : w [1] = true
      · simp only [hpipe, hfork, if_true, true_and, or_imp, forall_and]
        rw [← ihl hl, bind_unit]
        refine and_congr_right fun _ => ?_
        by_cases hfork' : w [2] = true
        · simp only [hfork', if_true, true_and]
          exact ihr hr
        · simp [hfork']
      · simp [hpipe, hfork]
    · simp [hpipe]

end Search

/-! ### The argument of `export` -/

section Export
variable {envs : List Env} {mem : Nat → UInt8} {a k : Nat} {arg value : List UInt8}

theorem checkenvname_eq_length_iff (name : List UInt8) : checkenvname name = name.length ↔ name = [] ∨ IsName name := by
  cases name with
  | nil => simp [checkenvname]
  | cons c s =>
    rw [checkenvname]
    by_cases hc : isStart c = true
    · have hall : (s.takeWhile isIdent).length = s.length ↔ ∀ d ∈ s, isIdent d = true := by
        constructor
        · intro hlen
          rw [← List.takeWhile_eq_self_iff]
          exact (List.takeWhile_prefix _).eq_of_length hlen
        · intro hall
          rw [List.takeWhile_eq_self_iff.mpr hall]
      rw [if_pos hc, List.length_cons, Nat.add_comm, Nat.add_right_cancel_iff, hall]
      simp [IsName, hc]
    · rw [if_neg hc]
      simp [IsName, hc]

/-- A name has no zero. -/
theorem IsName.nonzero {name : List UInt8} (h : IsName name) : ∀ c ∈ name, c ≠ 0 := by
  cases name with
  | nil => exact h.elim
  | cons c s =>
    intro d hd
    rcases List.mem_cons.mp hd with rfl | hd
    · rintro rfl
      exact absurd h.1 (by decide)
    · rintro rfl
      exact absurd (h.2 0 hd) (by decide)

/-- An `=` in the argument is where the name ends. -/
theorem FirstEquals.split (h : StringAt mem a arg) (hfirst : FirstEquals mem a k) (hk : k < arg.length) :
    equals ∈ arg ∧ arg.takeWhile (· ≠ equals) = bytes mem a k ∧
      StringAt mem (a + k + 1) ((arg.dropWhile (· ≠ equals)).drop 1) := by
  induction k generalizing a arg with
  | zero =>
    cases arg with
    | nil => cases hk
    | cons c arg =>
      have hc : c = equals := by rw [← h.head]; exact hfirst.1
      subst hc
      exact ⟨List.mem_cons_self .., rfl, h.tail⟩
  | succ k ih =>
    cases arg with
    | nil => cases hk
    | cons c arg =>
      have hc : c ≠ equals := by
        rw [← h.head]
        exact hfirst.2 0 (Nat.succ_pos k)
      have ha : mem a ≠ equals := by rwa [h.head]
      obtain ⟨hmem, htake, hvalue⟩ := ih h.tail ((firstEquals_succ ha).mp hfirst) (Nat.lt_of_succ_lt_succ hk)
      refine ⟨List.mem_cons_of_mem _ hmem, ?_, ?_⟩
      · rw [List.takeWhile_cons_of_pos (by simpa using hc), htake, bytes_succ, h.head]
      · have hat : a + (k + 1) = a + 1 + k := by omega
        rw [List.dropWhile_cons_of_pos (by simpa using hc), hat]
        exact hvalue

/-- An `=` behind the argument is not behind a name. -/
theorem FirstEquals.behind (h : StringAt mem a arg) (hfirst : FirstEquals mem a k) (hk : arg.length ≤ k) :
    checkenvname (bytes mem a k) ≠ k := by
  have hlt : arg.length < k := by
    rcases Nat.lt_or_eq_of_le hk with hlt | rfl
    · exact hlt
    · have hequals := hfirst.1
      rw [h.nul] at hequals
      exact absurd hequals (by decide)
  have hzero : (0 : UInt8) ∈ bytes mem a k := List.mem_map.mpr ⟨arg.length, List.mem_range.mpr hlt, h.nul⟩
  intro hname
  rcases (checkenvname_eq_length_iff _).mp (by rwa [length_bytes]) with hnil | hname
  · rw [hnil] at hzero
    cases hzero
  · exact hname.nonzero 0 hzero rfl

/-- What `export` does with its argument. -/
theorem export?_arg (hline : line? mem a = some arg) :
    export? envs mem a =
      if arg = dashP then some (0, envs)
      else if envs.length = nenvs then some (-1, envs)
      else
        (name? mem 32 a).bind fun r =>
          if checkenvname r.1 ≠ r.1.length then some (-1, envs)
          else
            (line? mem r.2).bind fun value =>
              if value.length < 96 ∧ value ≠ [] ∧ envs.length < nenvs then some (0, envs ++ [⟨r.1, dropSlash value⟩]) else none := by
  unfold export?
  rw [hline]
  rfl

/-- What `export` does when it has found an `=`. -/
theorem export?_found (hlast : mem 100 = 0) (ha : bufAt ≤ a) (harg : StringAt mem a arg) (hdash : arg ≠ dashP)
    (hroom : envs.length < nenvs) (hk : k < 32) (hak : a + k < bufEnd) (hfirst : FirstEquals mem a k) :
    ∃ value, StringAt mem (a + k + 1) value ∧
      export? envs mem a =
        if checkenvname (bytes mem a k) ≠ k then some (-1, envs)
        else if value.length < 96 ∧ value ≠ [] then some (0, envs ++ [⟨bytes mem a k, dropSlash value⟩])
        else none := by
  have hnext : a + k + 1 < bufEnd := by
    have hne : a + k ≠ 100 := by
      intro he
      have hequals := hfirst.1
      rw [he, hlast] at hequals
      exact absurd hequals (by decide)
    unfold bufEnd at hak ⊢
    omega
  obtain ⟨value, hvalue, hstr⟩ := exists_line? hlast (p := a + k + 1) (by omega) hnext
  obtain ⟨arg', harg', hstr'⟩ := exists_line? hlast ha (by omega)
  obtain rfl := harg.unique hstr'
  have hname : name? mem 32 a = some (bytes mem a k, a + k + 1) := name?_eq_some_iff.mpr ⟨k, hk, hak, hfirst, rfl⟩
  refine ⟨value, hstr, ?_⟩
  rw [export?_arg harg', if_neg hdash, if_neg (Nat.ne_of_lt hroom), hname, Option.bind_some, length_bytes, hvalue]
  simp [hroom]

/-- **`export` does what it is to do** if and only if an `=` comes in time and the value fits, unless it has nothing
to do. -/
theorem export_meets_iff (hlast : mem 100 = 0) (ha : bufAt ≤ a) (ha' : a < bufEnd) (hcount : envs.length ≤ nenvs) :
    ((export? envs mem a).isSome ∧
        ∀ arg, StringAt mem a arg → arg ≠ dashP → BadArg arg → export? envs mem a = some (-1, envs)) ↔
      StringAt mem a dashP ∨ envs.length = nenvs ∨ Assigns mem a := by
  obtain ⟨arg, hline, harg⟩ := exists_line? hlast ha ha'
  by_cases hdash : arg = dashP
  · subst hdash
    have hok : export? envs mem a = some (0, envs) := by rw [export?_arg hline, if_pos rfl]
    refine ⟨fun _ => .inl harg, fun _ => ⟨by rw [hok]; rfl, fun arg' harg' hne _ => absurd (harg'.unique harg) hne⟩⟩
  by_cases hfull : envs.length = nenvs
  · have hok : export? envs mem a = some (-1, envs) := by
      unfold export?
      rw [hline]
      show (if _ then _ else if _ then _ else _) = _
      rw [if_neg hdash, if_pos hfull]
    exact ⟨fun _ => .inr (.inl hfull), fun _ => ⟨by rw [hok]; rfl, fun _ _ _ _ => hok⟩⟩
  have hroom : envs.length < nenvs := lt_of_le_of_ne hcount hfull
  constructor
  · rintro ⟨hsome, hrejects⟩
    refine .inr (.inr ?_)
    obtain ⟨r, hr⟩ := Option.isSome_iff_exists.mp hsome
    rw [export?_arg hline, if_neg hdash, if_neg hfull] at hr
    obtain ⟨_, hname, -⟩ := Option.bind_eq_some_iff.mp hr
    obtain ⟨k, hk, hak, hfirst, -⟩ := name?_eq_some_iff.mp hname
    obtain ⟨value, hvalue, hexport⟩ := export?_found hlast ha harg hdash hroom hk hak hfirst
    have haccepts : checkenvname (bytes mem a k) = k → value.length < 96 ∧ value ≠ [] := by
      intro hcheck
      by_contra hnone
      rw [hexport, if_neg (not_not.mpr hcheck), if_neg hnone] at hsome
      cases hsome
    refine ⟨k, Nat.pos_of_ne_zero ?_, hk, hak, hfirst, fun hcheck value' hvalue' => ?_⟩
    · -- an empty name is taken for one
      rintro rfl
      have hbad : BadArg arg := by
        by_cases hlen : 0 < arg.length
        · obtain ⟨-, htake, -⟩ := hfirst.split harg hlen
          exact .inr (.inl (by rw [htake]; exact id))
        · rw [List.length_eq_zero_iff.mp (Nat.le_zero.mp (Nat.not_lt.mp hlen))]
          exact .inl (by simp)
      have hrejected := hrejects arg harg hdash hbad
      have hzero : checkenvname (bytes mem a 0) = 0 := rfl
      rw [hexport, if_neg (not_not.mpr hzero), if_pos (haccepts hzero)] at hrejected
      cases hrejected
    · rw [hvalue'.unique hvalue]
      exact (haccepts hcheck).symm
  · rintro (hdash' | hfull' | ⟨k, hpos, hk, hak, hfirst, hfit⟩)
    · exact absurd (harg.unique hdash') hdash
    · exact absurd hfull' hfull
    · obtain ⟨value, hvalue, hexport⟩ := export?_found hlast ha harg hdash hroom hk hak hfirst
      by_cases hcheck : checkenvname (bytes mem a k) = k
      · obtain ⟨hne, hlen⟩ := hfit hcheck value hvalue
        rw [if_neg (not_not.mpr hcheck), if_pos ⟨hlen, hne⟩] at hexport
        refine ⟨by rw [hexport]; rfl, fun arg' harg' _ hbad => ?_⟩
        -- the argument is right
        obtain rfl := harg'.unique harg
        have hin : k < arg'.length := by
          by_contra hout
          exact hfirst.behind harg (Nat.not_lt.mp hout) hcheck
        obtain ⟨hmem, htake, hrest⟩ := hfirst.split harg hin
        have hname : IsName (bytes mem a k) := by
          refine ((checkenvname_eq_length_iff _).mp (by rwa [length_bytes])).resolve_left fun hnil => ?_
          have hzero := congrArg List.length hnil
          rw [length_bytes] at hzero
          exact absurd hzero (Nat.ne_of_gt hpos)
        exfalso
        rcases hbad with hno | hno | hlong | hlong
        · exact hno hmem
        · exact hno (by rwa [htake])
        · rw [htake, length_bytes] at hlong
          omega
        · rw [hrest.unique hvalue] at hlong
          omega
      · rw [if_pos hcheck] at hexport
        exact ⟨by rw [hexport]; rfl, fun _ _ _ _ => hexport⟩

/-- **Inside its arrays, `export` does what it says of its argument alone.** -/
theorem export?_shExport (hlast : mem 100 = 0) (ha : bufAt ≤ a) (ha' : a < bufEnd) (hcount : envs.length ≤ nenvs)
    (harg : StringAt mem a arg) {r : Int × List Env} (h : export? envs mem a = some r) : shExport arg envs = r := by
  obtain ⟨arg', hline, harg'⟩ := exists_line? hlast ha ha'
  obtain rfl := harg'.unique harg
  have hcases := h
  rw [export?_arg hline] at hcases
  unfold shExport
  by_cases hdash : arg' = dashP
  · rw [if_pos hdash] at hcases ⊢
    exact Option.some.inj hcases
  rw [if_neg hdash] at hcases ⊢
  by_cases hfull : envs.length = nenvs
  · rw [if_pos hfull] at hcases ⊢
    exact Option.some.inj hcases
  rw [if_neg hfull] at hcases ⊢
  obtain ⟨_, hname, -⟩ := Option.bind_eq_some_iff.mp hcases
  obtain ⟨k, hk, hak, hfirst, -⟩ := name?_eq_some_iff.mp hname
  obtain ⟨value, hvalue, hexport⟩ := export?_found hlast ha harg hdash (lt_of_le_of_ne hcount hfull) hk hak hfirst
  rw [h] at hexport
  by_cases hin : k < arg'.length
  · obtain ⟨hmem, htake, hrest⟩ := hfirst.split harg hin
    cases hdrop : arg'.dropWhile (· ≠ equals) with
    | nil =>
      have hall := List.dropWhile_eq_nil_iff.mp hdrop equals hmem
      simp at hall
    | cons c rest =>
      rw [hdrop, List.drop_one, List.tail_cons] at hrest
      dsimp only
      rw [htake, length_bytes, hrest.unique hvalue]
      by_cases hcheck : checkenvname (bytes mem a k) = k
      · rw [if_neg (not_not.mpr hcheck)] at hexport ⊢
        split at hexport
        · exact (Option.some.inj hexport).symm
        · cases hexport
      · rw [if_pos hcheck] at hexport ⊢
        exact (Option.some.inj hexport).symm
  · rw [if_pos (hfirst.behind harg (Nat.not_lt.mp hin))] at hexport
    have hnone : equals ∉ arg' := by
      intro hmem
      obtain ⟨j, hj, hjeq⟩ := List.mem_iff_getElem.mp hmem
      have hat := harg.chars j equals (by rw [List.getElem?_eq_getElem hj, hjeq])
      exact hfirst.2 j (by omega) hat
    have hdrop : arg'.dropWhile (· ≠ equals) = [] := by
      rw [List.dropWhile_eq_nil_iff]
      intro c hc
      simp only [ne_eq, decide_eq_true_eq]
      rintro rfl
      exact hnone hc
    rw [hdrop]
    exact (Option.some.inj hexport).symm

end Export

/-! ### Runs -/

/-- What the next step is given is in the line buffer. -/
def Phase.InBuffer : Phase → Prop
  | .exporting a => bufAt ≤ a ∧ a < bufEnd
  | .running cmd => WordsIn cmd
  | _ => True

/-- What holds in each state of a session. -/
structure Inv (s : Shell) : Prop where
  last : s.mem 100 = 0
  count : s.envs.length ≤ nenvs
  fits : ∀ e ∈ s.envs, EnvFits e
  nonzero : ∀ e ∈ s.envs, ∀ c ∈ e.value, c ≠ 0
  given : s.phase.InBuffer

section Steps
variable {s s' : Shell} {i : Input} {mem : Nat → UInt8}

/-- The line in the buffer. -/
theorem exists_line (hlast : mem 100 = 0) : ∃ line, StringAt mem bufAt line ∧ line.length < 100 := by
  have hzero : mem (bufAt + 99) = 0 := hlast
  obtain ⟨line, hline, hlen⟩ := exists_stringAt hzero
  exact ⟨line, hline, Nat.lt_succ_of_le hlen⟩

/-- What the parser makes of the line buffer. -/
theorem parsecmd_buffer (hlast : mem 100 = 0) :
    (∃ msg, parsecmd 400 mem bufAt = some (.error msg)) ∨
      ∃ cmd mem', parsecmd 400 mem bufAt = some (.ok (cmd, mem')) ∧ mem' 100 = 0 ∧ WordsIn cmd := by
  obtain ⟨line, hline, hlen⟩ := exists_line hlast
  rcases parsecmd_ends hline (n := 400) (by unfold enough; omega) with hmsg | ⟨ts, cmd, hreads, hcmd, hok⟩
  · exact .inl hmsg
  · refine .inr ⟨cmd, _, hok, ?_, fun w hw => ?_⟩
    · rw [nulterminate_apply, hlast, ite_self]
    · obtain ⟨hat, hlt, -, -⟩ := hreads.word_mem (hcmd.words w hw)
      have hin := ((left_line hline hreads).inside hline.nul).2 _ _ (hcmd.words w hw)
      refine ⟨hat, ?_⟩
      unfold bufAt bufEnd at *
      omega

/-- The command goes to `export` with one of its words, or to `runcmd`. -/
theorem dispatch?_ends (hlast : mem 100 = 0) {cmd : Cmd} (hwords : WordsIn cmd) :
    ∃ phase, dispatch? mem cmd = some phase ∧ phase.InBuffer := by
  cases cmd with
  | execcmd argv =>
    cases argv with
    | nil => exact ⟨.prompt, rfl, trivial⟩
    | cons word args =>
      obtain ⟨q, eq⟩ := word
      obtain ⟨hq, hq'⟩ := hwords (q, eq) (List.mem_cons_self ..)
      obtain ⟨argv0, hline, -⟩ := exists_line? hlast hq hq'
      by_cases hexport : argv0 = exportName
      · cases args with
        | nil => exact ⟨.prompt, by simp [dispatch?, hline, hexport], trivial⟩
        | cons arg args =>
          have harg : WordsIn (.execcmd [arg]) := fun w hw => hwords w (by simp_all [Cmd.words])
          exact ⟨.exporting arg.1, by simp [dispatch?, hline, hexport], harg arg (List.mem_cons_self ..)⟩
      · exact ⟨.running _, by simp [dispatch?, hline, hexport], hwords⟩
  | redircmd | pipecmd | listcmd | backcmd => exact ⟨.running _, rfl, hwords⟩

/-- What `export` makes of the table. -/
theorem export?_table {envs : List Env} {a : Nat} {r : Int × List Env} (h : export? envs mem a = some r) :
    r.2 = envs ∨ ∃ e : Env, r.2 = envs ++ [e] ∧ envs.length < nenvs ∧ EnvFits e ∧ ∀ c ∈ e.value, c ≠ 0 := by
  obtain ⟨arg, hline, -⟩ := Option.bind_eq_some_iff.mp h
  rw [export?_arg hline] at h
  split at h
  · cases h
    exact .inl rfl
  split at h
  · cases h
    exact .inl rfl
  obtain ⟨_, hname, h⟩ := Option.bind_eq_some_iff.mp h
  split at h
  · cases h
    exact .inl rfl
  obtain ⟨value, hvalue, h⟩ := Option.bind_eq_some_iff.mp h
  split at h
  · next hfit =>
    cases h
    obtain ⟨k, hk, -, -, rfl⟩ := name?_eq_some_iff.mp hname
    have hstr : ∀ c ∈ value, c ≠ 0 := by
      unfold line? at hvalue
      split at hvalue
      · exact (string?_eq_some_iff.mp hvalue).1.nonzero
      · cases hvalue
    have hdrop : (dropSlash value).Sublist value := by
      unfold dropSlash
      split
      · exact List.dropLast_sublist value
      · exact List.Sublist.refl value
    refine .inr ⟨_, rfl, hfit.2.2, ⟨?_, hdrop.length_le.trans_lt hfit.1⟩, fun c hc => hstr c (hdrop.subset hc)⟩
    rwa [length_bytes]
  · cases h

theorem Inv.step (hI : Inv s) (hstep : s.step? i = some s') : Inv s' := by
  obtain ⟨envs, mem, phase⟩ := s
  have hlast : mem 100 = 0 := hI.last
  cases phase with
  | prompt =>
    cases hstep
    refine ⟨?_, hI.count, hI.fits, hI.nonzero, ?_⟩
    · show i.line.val.getD 99 0 = 0
      rw [List.getD_eq_getElem?_getD, List.getElem?_eq_none i.line.property]
      rfl
    · show Phase.InBuffer (if _ then Phase.exited else Phase.given)
      split <;> trivial
  | given =>
    obtain ⟨r, hr, rfl⟩ := Option.map_eq_some_iff.mp hstep
    obtain ⟨line, hline, hlen⟩ := exists_line hlast
    obtain ⟨-, hexpand, rfl⟩ := (replace?_eq_some_iff hI.fits hline hlen).mp hr
    exact ⟨replace_last hI.nonzero hline hlen hexpand hlast, hI.count, hI.fits, hI.nonzero, trivial⟩
  | replaced =>
    change (if isCd mem = true then _ else _) = _ at hstep
    split at hstep
    · obtain ⟨line, -, rfl⟩ := Option.map_eq_some_iff.mp hstep
      refine ⟨?_, hI.count, hI.fits, hI.nonzero, trivial⟩
      show Function.update mem _ 0 100 = 0
      rw [Function.update_apply, hlast, ite_self]
    · rcases parsecmd_buffer hlast with ⟨msg, hmsg⟩ | ⟨cmd, mem', hok, hlast', hwords⟩
      · simp only [hmsg] at hstep
        cases hstep
        exact ⟨hlast, hI.count, hI.fits, hI.nonzero, trivial⟩
      · obtain ⟨phase, hphase, hgiven⟩ := dispatch?_ends hlast' hwords
        simp only [hok, hphase] at hstep
        cases hstep
        exact ⟨hlast', hI.count, hI.fits, hI.nonzero, hgiven⟩
  | exporting a =>
    obtain ⟨r, hr, rfl⟩ := Option.map_eq_some_iff.mp hstep
    rcases export?_table hr with hsame | ⟨e, happend, hroom, hfit, hvalue⟩
    · rw [hsame]
      exact ⟨hlast, hI.count, hI.fits, hI.nonzero, trivial⟩
    · rw [happend]
      refine ⟨hlast, ?_, ?_, ?_, trivial⟩
      · show (envs ++ [e]).length ≤ nenvs
        rw [List.length_append]
        exact hroom
      · exact List.forall_mem_append.mpr ⟨hI.fits, by simpa using hfit⟩
      · exact List.forall_mem_append.mpr ⟨hI.nonzero, by simpa using hvalue⟩
  | running cmd =>
    change (if i.answers [] = true then _ else _) = _ at hstep
    split at hstep
    · obtain ⟨_, -, rfl⟩ := Option.map_eq_some_iff.mp hstep
      exact ⟨hlast, hI.count, hI.fits, hI.nonzero, trivial⟩
    · cases hstep
      exact ⟨hlast, hI.count, hI.fits, hI.nonzero, trivial⟩
  | exited =>
    cases hstep
    exact hI

theorem inv_boot : Inv Shell.boot := by
  exact ⟨rfl, by decide +kernel, by decide +kernel, by decide +kernel, trivial⟩

/-- Outside `export` there is nothing to reject. -/
theorem meets_iff_inside (h : ∀ a, s.phase ≠ .exporting a) : Meets i s ↔ (s.step? i).isSome :=
  ⟨fun hm => hm.inside, fun hin => ⟨hin, fun a _ ha => absurd ha (h a)⟩⟩

theorem Inv.meets_iff (hI : Inv s) : Meets i s ↔ Fits i s := by
  obtain ⟨envs, mem, phase⟩ := s
  have hlast : mem 100 = 0 := hI.last
  cases phase with
  | prompt => exact (meets_iff_inside (by simp)).trans (iff_of_true rfl trivial)
  | given =>
    obtain ⟨line, hline, hlen⟩ := exists_line hlast
    have hreplace := replace?_eq_some_iff hI.fits hline hlen (r := replace envs mem bufAt)
    rw [meets_iff_inside (by simp)]
    show (Option.map _ (replace? envs mem)).isSome ↔ _
    rw [Option.isSome_map, Option.isSome_iff_exists]
    constructor
    · rintro ⟨r, hr⟩ line' hline'
      obtain ⟨hnames, hexpand, -⟩ := (replace?_eq_some_iff hI.fits hline hlen).mp hr
      rw [hline'.unique hline]
      exact ⟨hnames, hexpand⟩
    · intro h
      obtain ⟨hnames, hexpand⟩ := h line hline
      exact ⟨_, hreplace.mpr ⟨hnames, hexpand, rfl⟩⟩
  | replaced =>
    refine (meets_iff_inside (by simp)).trans (iff_of_true ?_ trivial)
    show (if isCd mem = true then _ else _ : Option Shell).isSome
    split
    · obtain ⟨line, hline, -⟩ := exists_line? hlast (le_refl bufAt) (by decide)
      rw [hline]
      rfl
    · rcases parsecmd_buffer hlast with ⟨msg, hmsg⟩ | ⟨cmd, mem', hok, hlast', hwords⟩
      · simp [hmsg]
      · obtain ⟨phase, hphase, -⟩ := dispatch?_ends hlast' hwords
        simp [hok, hphase]
  | exporting a =>
    obtain ⟨ha, ha'⟩ := hI.given
    refine Iff.trans ?_ (export_meets_iff hlast ha ha' hI.count)
    constructor
    · rintro ⟨hin, hrejects⟩
      refine ⟨?_, fun arg => hrejects a arg rfl⟩
      change (Option.map _ (export? envs mem a)).isSome at hin
      rwa [Option.isSome_map] at hin
    · rintro ⟨hin, hrejects⟩
      refine ⟨?_, fun a' arg ha' => ?_⟩
      · show (Option.map _ (export? envs mem a)).isSome
        rwa [Option.isSome_map]
      · cases ha'
        exact hrejects arg
  | running cmd =>
    have hrun := runcmd?_eq_some_iff hI.fits hlast hI.given (w := i.answers)
    rw [meets_iff_inside (by simp)]
    show (if i.answers [] = true then Option.map _ (runcmd? envs mem i.answers cmd) else _ : Option Shell).isSome ↔ (_ → _)
    by_cases hfork : i.answers [] = true
    · rw [if_pos hfork, Option.isSome_map, ← hrun]
      constructor
      · intro hsome _
        obtain ⟨_, hr⟩ := Option.isSome_iff_exists.mp hsome
        exact hr
      · intro h
        rw [h hfork]
        rfl
    · rw [if_neg hfork]
      exact iff_of_true rfl fun h => absurd h hfork
  | exited => exact (meets_iff_inside (by simp)).trans (iff_of_true rfl trivial)

theorem throughout_meets_iff {is : List Input} (hI : Inv s) : Throughout Meets is s ↔ Throughout Fits is s := by
  induction is generalizing s with
  | nil => exact Iff.rfl
  | cons i is ih => exact and_congr hI.meets_iff (forall₂_congr fun s' hstep => ih (hI.step hstep))

/-- **A session stays inside the arrays and rejects bad arguments** if and only if each of its steps finds what it
relies on. -/
theorem shell_buffers (is : List Input) : Throughout Meets is Shell.boot ↔ Throughout Fits is Shell.boot :=
  throughout_meets_iff inv_boot

/-- A session that stays inside goes on. -/
theorem run?_isSome {is : List Input} (h : Throughout Meets is s) : (s.run? is).isSome := by
  induction is generalizing s with
  | nil => rfl
  | cons i is ih =>
    obtain ⟨hm, hrest⟩ := h
    obtain ⟨s', hstep⟩ := Option.isSome_iff_exists.mp hm.inside
    show ((s.step? i).bind (Shell.run? is)).isSome
    rw [hstep]
    exact ih (hrest s' hstep)

end Steps

/-! ### Two sessions -/

/-- `export A=b`, up to its end. -/
def exportAb : List Input :=
  List.replicate 4 ⟨⟨[101, 120, 112, 111, 114, 116, 32, 65, 61, 98, 10], by decide⟩, fun _ => true⟩

example : (Shell.boot.run? exportAb).map Shell.envs = some [embedded, ⟨[65], [98]⟩] := by decide

/-- `export A`. -/
def exportA : List Input := List.replicate 4 ⟨⟨[101, 120, 112, 111, 114, 116, 32, 65, 10], by decide⟩, fun _ => true⟩

/-- Behind the argument there is no `=`, and `name` is overrun. -/
theorem not_shell_buffers : ¬ ∀ is : List Input, Throughout Meets is Shell.boot := by
  intro h
  have hruns := run?_isSome (h exportA)
  revert hruns
  decide

end Farron.Sh
