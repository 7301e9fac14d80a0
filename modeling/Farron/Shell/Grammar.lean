import Farron.Shell.Parser
import Farron.Shell.Variables

/-! What the command parser accepts.

Each function of the parser takes the tokens of a phrase, and nothing behind them (`Derives.takes`), and where
it returns it has taken such tokens (`parse_ends`). So `parsecmd` returns the tree of a derivation if there is one, and
stops if there is none (`parsecmd_decides`). -/
namespace Farron.Sh
open Strings Descent

/-! ### The grammar -/

/-- A redirection of a descriptor. -/
structure Redir where
  file : Nat
  efile : Nat
  mode : Nat
  fd : Nat

/-- The command with redirections around it, the first one innermost. -/
def Cmd.within (cmd : Cmd) (rs : List Redir) : Cmd :=
  rs.foldl (fun cmd r => .redircmd cmd r.file r.efile r.mode r.fd) cmd

/-- What the three signs stand for. -/
inductive Redirects : Token → Nat → Nat → Prop
  | input : Redirects .less oRdonly 0
  | output : Redirects .great (oWronly ||| oCreate ||| oTrunc) 1
  | append : Redirects .append (oWronly ||| oCreate ||| oAppend) 1

/-- `redirs := {('<' | '>' | '>>') word}`. -/
inductive Redirs : List Token → List Redir → Prop
  | nil : Redirs [] []
  | cons {t : Token} {q eq mode fd : Nat} {ts : List Token} {rs : List Redir} (h : Redirects t mode fd) (rest : Redirs ts rs) :
      Redirs (t :: .word q eq :: ts) (⟨q, eq, mode, fd⟩ :: rs)

/-- `{word redirs}`. -/
inductive Args : List Token → List (Nat × Nat) → List Redir → Prop
  | nil : Args [] [] []
  | cons {q eq : Nat} {ts us : List Token} {rs rs' : List Redir} {ws : List (Nat × Nat)} (h : Redirs ts rs)
      (rest : Args us ws rs') : Args (.word q eq :: ts ++ us) ((q, eq) :: ws) (rs ++ rs')

inductive Phrase
  | line
  | pipe
  | exec

/-- The tokens are derived, and the command is the tree of the derivation. -/
inductive Derives : Phrase → List Token → Cmd → Prop
  /-- `line := pipe {'&'}` -/
  | last {ts : List Token} {c : Cmd} (k : Nat) (h : Derives .pipe ts c) :
      Derives .line (ts ++ List.replicate k .amp) (Cmd.backcmd^[k] c)
  /-- `line := pipe {'&'} ';' line` -/
  | list {ts us : List Token} {c d : Cmd} (k : Nat) (h : Derives .pipe ts c) (rest : Derives .line us d) :
      Derives .line (ts ++ List.replicate k .amp ++ .semi :: us) (.listcmd (Cmd.backcmd^[k] c) d)
  /-- `pipe := exec` -/
  | single {ts : List Token} {c : Cmd} (h : Derives .exec ts c) : Derives .pipe ts c
  /-- `pipe := exec '|' pipe` -/
  | pipe {ts us : List Token} {c d : Cmd} (h : Derives .exec ts c) (rest : Derives .pipe us d) :
      Derives .pipe (ts ++ .bar :: us) (.pipecmd c d)
  /-- `exec := '(' line ')' redirs` -/
  | block {ts us : List Token} {c : Cmd} {rs : List Redir} (h : Derives .line ts c) (hr : Redirs us rs) :
      Derives .exec (.lparen :: ts ++ .rparen :: us) (c.within rs)
  /-- `exec := redirs {word redirs}`, with fewer than `MAXARGS` words -/
  | simple {ts us : List Token} {ws : List (Nat × Nat)} {rs rs' : List Redir} (hr : Redirs ts rs) (h : Args us ws rs')
      (hmax : ws.length < maxargs) : Derives .exec (ts ++ us) ((Cmd.execcmd ws).within (rs ++ rs'))

/-- The tree of a derivation of the line at `s`. -/
def Accepts (mem : Nat → UInt8) (s : Nat) (cmd : Cmd) : Prop := ∃ ts, Reads mem s ts ∧ Derives .line ts cmd

/-- The words in a command: the arguments, and the files. -/
def Cmd.words : Cmd → List (Nat × Nat)
  | .execcmd argv => argv
  | .redircmd cmd file efile _ _ => cmd.words ++ [(file, efile)]
  | .pipecmd left right => left.words ++ right.words
  | .listcmd left right => left.words ++ right.words
  | .backcmd cmd => cmd.words

/-! ### Nesting -/

theorem within_append (cmd : Cmd) (rs rs' : List Redir) : cmd.within (rs ++ rs') = (cmd.within rs).within rs' := List.foldl_append

theorem setArg_within (q eq : Nat) (cmd : Cmd) (rs : List Redir) : (cmd.within rs).setArg q eq = (cmd.setArg q eq).within rs := by
  induction rs generalizing cmd with
  | nil => rfl
  | cons r rs ih => exact ih _

theorem setArg_execcmd (q eq : Nat) (ws : List (Nat × Nat)) (rs : List Redir) :
    ((Cmd.execcmd ws).within rs).setArg q eq = (Cmd.execcmd (ws ++ [(q, eq)])).within rs := setArg_within ..

theorem Redirects.redirect {t : Token} {mode fd : Nat} (h : Redirects t mode fd) (q eq : Nat) (cmd : Cmd) :
    redirect t.code q eq cmd = .redircmd cmd q eq mode fd := by
  cases h <;> rfl

/-! ### Taking a phrase -/

/-- Nothing follows, or one of the tokens. -/
def Follow (after : List Token) (rest : List Token) : Prop := ∀ t, rest.head? = some t → t ∈ after

/-- What follows a phrase. -/
def Phrase.after : Phrase → List Token
  | .line => [.rparen]
  | .pipe => [.rparen, .semi, .amp]
  | .exec => [.rparen, .semi, .amp, .bar]

theorem Follow.mono {after after' rest : List Token} (h : Follow after rest) (hsub : after ⊆ after') : Follow after' rest :=
  fun t ht => hsub (h t ht)

theorem Follow.cons {after : List Token} {t : Token} (ht : t ∈ after) (rest : List Token) : Follow after (t :: rest) := by
  intro t' ht'
  cases ht'
  exact ht

/-- What may follow does not start with any of the characters. -/
theorem Follow.not_among {after rest : List Token} (h : Follow after rest) (toks : List UInt8)
    (hno : ∀ t ∈ after, t.first.any (strchr toks) = false) : among toks rest = false := by
  cases rest with
  | nil => rfl
  | cons t rest => exact hno t (h t rfl)

/-- How the parser reads a phrase. -/
def Phrase.parse (mem : Nat → UInt8) (es : Nat) : Phrase → Nat → Parse Cmd
  | .line => parseline mem es
  | .pipe => parsepipe mem es
  | .exec => parseexec mem es

/-- The fuel that a phrase takes without any tokens; each token takes four more, for the four functions. -/
def Phrase.slack : Phrase → Nat
  | .line => 4
  | .pipe => 3
  | .exec => 2

section Takes
variable {mem : Nat → UInt8} {es n : Nat} {ts rest : List Token}

theorem Redirs.takes (hes : mem es = 0) {rs : List Redir} (h : Redirs ts rs) (hrest : among [60, 62] rest = false)
    (hn : ts.length < n) (cmd : Cmd) :
    Descent.Takes (Left mem es) (parseredirs mem es n cmd) (ts ++ rest) (cmd.within rs) rest := by
  induction h generalizing n cmd with
  | nil =>
    obtain ⟨n, rfl⟩ := Nat.exists_eq_succ_of_ne_zero (Nat.ne_of_gt hn)
    rw [parseredirs]
    apply (peek_takes hes (by decide) rest).bind
    rw [if_neg (by simp [hrest])]
    exact Descent.Takes.ret
  | @cons t q eq mode fd ts rs hsign _ ih =>
    obtain ⟨n, rfl⟩ := Nat.exists_eq_succ_of_ne_zero (Nat.ne_of_gt (Nat.zero_lt_of_lt hn))
    have hsome : among [60, 62] (t :: .word q eq :: ts ++ rest) = true := by cases hsign <;> rfl
    rw [parseredirs]
    apply (peek_takes hes (by decide) _).bind
    rw [if_pos hsome]
    apply (gettok_takes hes t _).bind
    apply (gettoken_word hes q eq _).bind
    simp only [ne_eq, not_true_eq_false, if_false]
    rw [hsign.redirect]
    exact ih (by simp only [List.length_cons] at hn; omega) _

/-- Words, and what follows a command, are no redirections. -/
theorem Args.not_redir {ws : List (Nat × Nat)} {rs : List Redir} (h : Args ts ws rs) (hrest : Follow Phrase.exec.after rest) :
    among [60, 62] (ts ++ rest) = false := by
  cases h with
  | nil => exact hrest.not_among _ (by decide)
  | cons _ _ => rfl

theorem Args.takes (hes : mem es = 0) {ws : List (Nat × Nat)} {rs : List Redir} (h : Args ts ws rs)
    (hrest : Follow Phrase.exec.after rest) (hn : ts.length < n) (ws' : List (Nat × Nat)) (rs' : List Redir)
    (hmax : (ws' ++ ws).length < maxargs) :
    Descent.Takes (Left mem es) (parseargs mem es n ((Cmd.execcmd ws').within rs') ws'.length) (ts ++ rest)
      ((Cmd.execcmd (ws' ++ ws)).within (rs' ++ rs)) rest := by
  induction h generalizing n ws' rs' with
  | nil =>
    obtain ⟨n, rfl⟩ := Nat.exists_eq_succ_of_ne_zero (Nat.ne_of_gt hn)
    rw [parseargs, List.append_nil, List.append_nil]
    apply (peek_takes hes (by decide) rest).bind
    cases rest with
    | nil =>
      rw [if_neg (by simp [among])]
      apply (gettoken_end hes).bind
      exact Descent.Takes.ret
    | cons t rest =>
      have hsome : among [124, 41, 38, 59] (t :: rest) = true := by
        have hall : ∀ t ∈ Phrase.exec.after, t.first.any (strchr [124, 41, 38, 59]) = true := by decide
        exact hall t (hrest t rfl)
      rw [if_pos hsome]
      exact Descent.Takes.ret
  | @cons q eq ts us rs rs'' ws hr h ih =>
    obtain ⟨n, rfl⟩ := Nat.exists_eq_succ_of_ne_zero (Nat.ne_of_gt (Nat.zero_lt_of_lt hn))
    have hlen : ts.length < n ∧ us.length < n := by
      simp only [List.length_cons, List.length_append] at hn
      omega
    rw [parseargs, List.cons_append, List.cons_append, List.append_assoc]
    apply (peek_takes hes (by decide) _).bind
    rw [if_neg (by simp [among, Token.first])]
    apply (gettoken_word hes q eq _).bind
    have hroom : ¬ ws'.length + 1 ≥ maxargs := by
      simp only [List.length_append, List.length_cons] at hmax
      omega
    simp only [ne_eq, not_true_eq_false, if_false, if_neg hroom, if_neg (show letterA ≠ 0 by decide), setArg_execcmd]
    have hredirs := hr.takes hes (h.not_redir hrest) hlen.1 ((Cmd.execcmd (ws' ++ [(q, eq)])).within rs')
    apply hredirs.bind
    rw [← within_append]
    have hargs := ih hlen.2 (ws' ++ [(q, eq)]) (rs' ++ rs) (by simpa using hmax)
    simpa using hargs

theorem parsebacks_takes (hes : mem es = 0) (k : Nat) (hrest : among [38] rest = false) (hn : k < n) (cmd : Cmd) :
    Descent.Takes (Left mem es) (parsebacks mem es n cmd) (List.replicate k .amp ++ rest) (Cmd.backcmd^[k] cmd) rest := by
  induction k generalizing n cmd with
  | zero =>
    obtain ⟨n, rfl⟩ := Nat.exists_eq_succ_of_ne_zero (Nat.ne_of_gt hn)
    rw [parsebacks]
    apply (peek_takes hes (by decide) rest).bind
    rw [if_neg (by simp [hrest])]
    exact Descent.Takes.ret
  | succ k ih =>
    obtain ⟨n, rfl⟩ := Nat.exists_eq_succ_of_ne_zero (Nat.ne_of_gt (Nat.zero_lt_of_lt hn))
    rw [parsebacks]
    apply (peek_takes hes (by decide) _).bind
    rw [List.replicate_succ, List.cons_append, if_pos (by rfl)]
    apply (gettok_takes hes .amp _).bind
    exact ih (by omega) _

/-- **The parser takes a phrase**, if what follows may follow it. -/
theorem Derives.takes (hes : mem es = 0) {N : Phrase} {c : Cmd} (h : Derives N ts c) (hrest : Follow N.after rest)
    (hn : 4 * ts.length + N.slack ≤ n) : Descent.Takes (Left mem es) (N.parse mem es n) (ts ++ rest) c rest := by
  induction h generalizing rest n with
  | @last ts c k h ih =>
    obtain ⟨n, rfl⟩ : ∃ m, n = m + 1 := ⟨n - 1, by simp only [Phrase.slack] at hn; omega⟩
    simp only [List.length_append, List.length_replicate, Phrase.slack] at hn
    show Descent.Takes _ (parseline mem es (n + 1)) _ _ _
    rw [parseline, List.append_assoc]
    have hbacks : Follow Phrase.pipe.after (List.replicate k .amp ++ rest) := by
      cases k with
      | zero => exact hrest.mono (by decide)
      | succ k => exact Follow.cons (by decide) _
    apply (ih hbacks (by simp only [Phrase.slack]; omega)).bind
    apply (parsebacks_takes hes k (hrest.not_among _ (by decide)) (by omega) c).bind
    apply (peek_takes hes (by decide) rest).bind
    rw [if_neg (by simp [hrest.not_among [59] (by decide)])]
    exact Descent.Takes.ret
  | @list ts us c d k h h' ih ih' =>
    obtain ⟨n, rfl⟩ : ∃ m, n = m + 1 := ⟨n - 1, by simp only [Phrase.slack] at hn; omega⟩
    simp only [List.length_append, List.length_replicate, List.length_cons, Phrase.slack] at hn
    show Descent.Takes _ (parseline mem es (n + 1)) _ _ _
    rw [parseline, List.append_assoc, List.append_assoc, List.cons_append]
    have hbacks : Follow Phrase.pipe.after (List.replicate k .amp ++ .semi :: (us ++ rest)) := by
      cases k with
      | zero => exact Follow.cons (by decide) _
      | succ k => exact Follow.cons (by decide) _
    apply (ih hbacks (by simp only [Phrase.slack]; omega)).bind
    apply (parsebacks_takes hes k (by rfl) (by omega) c).bind
    apply (peek_takes hes (by decide) _).bind
    rw [if_pos (by rfl)]
    apply (gettok_takes hes .semi _).bind
    apply (ih' hrest (by simp only [Phrase.slack]; omega)).bind
    exact Descent.Takes.ret
  | @single ts c h ih =>
    obtain ⟨n, rfl⟩ : ∃ m, n = m + 1 := ⟨n - 1, by simp only [Phrase.slack] at hn; omega⟩
    simp only [Phrase.slack] at hn
    show Descent.Takes _ (parsepipe mem es (n + 1)) _ _ _
    rw [parsepipe]
    apply (ih (hrest.mono (by decide)) (by simp only [Phrase.slack]; omega)).bind
    apply (peek_takes hes (by decide) rest).bind
    rw [if_neg (by simp [hrest.not_among [124] (by decide)])]
    exact Descent.Takes.ret
  | @pipe ts us c d h h' ih ih' =>
    obtain ⟨n, rfl⟩ : ∃ m, n = m + 1 := ⟨n - 1, by simp only [Phrase.slack] at hn; omega⟩
    simp only [List.length_append, List.length_cons, Phrase.slack] at hn
    show Descent.Takes _ (parsepipe mem es (n + 1)) _ _ _
    rw [parsepipe, List.append_assoc, List.cons_append]
    apply (ih (Follow.cons (by decide) _) (by simp only [Phrase.slack]; omega)).bind
    apply (peek_takes hes (by decide) _).bind
    rw [if_pos (by rfl)]
    apply (gettok_takes hes .bar _).bind
    apply (ih' hrest (by simp only [Phrase.slack]; omega)).bind
    exact Descent.Takes.ret
  | @block ts us c rs h hr ih =>
    simp only [List.length_append, List.length_cons, Phrase.slack] at hn
    obtain ⟨n, rfl⟩ : ∃ m, n = m + 2 := ⟨n - 2, by omega⟩
    show Descent.Takes _ (parseexec mem es (n + 1 + 1)) _ _ _
    rw [parseexec, parseblock, List.cons_append, List.cons_append, List.append_assoc, List.cons_append]
    apply (peek_takes hes (by decide) _).bind
    rw [if_pos (by rfl)]
    apply (peek_takes hes (by decide) _).bind
    rw [if_pos (by rfl)]
    apply (gettok_takes hes .lparen _).bind
    apply (ih (Follow.cons (by decide) _) (by simp only [Phrase.slack]; omega)).bind
    apply (peek_takes hes (by decide) _).bind
    rw [if_pos (by rfl)]
    apply (gettok_takes hes .rparen _).bind
    exact hr.takes hes (hrest.not_among _ (by decide)) (by omega) c
  | @simple ts us ws rs rs' hr h hmax =>
    simp only [List.length_append, Phrase.slack] at hn
    obtain ⟨n, rfl⟩ : ∃ m, n = m + 1 := ⟨n - 1, by omega⟩
    show Descent.Takes _ (parseexec mem es (n + 1)) _ _ _
    have hopen : among [40] (ts ++ (us ++ rest)) = false := by
      cases hr with
      | nil =>
        cases h with
        | nil => exact hrest.not_among _ (by decide)
        | cons => rfl
      | cons hsign => cases hsign <;> rfl
    rw [parseexec, List.append_assoc]
    apply (peek_takes hes (by decide) _).bind
    rw [if_neg (by simp [hopen])]
    apply (hr.takes hes (h.not_redir hrest) (by omega) _).bind
    exact h.takes hes hrest (by omega) [] rs hmax

end Takes

/-! ### What has been taken -/

section Ends
variable {mem : Nat → UInt8} {es n : Nat} {ts : List Token}

theorem Token.mark_code {t : Token} (ht : t.first.isSome) : t.code ≠ letterA ∧ t.code ≠ 0 := by
  cases t with
  | word q eq => cases ht
  | _ => decide

/-- Only `>` and `>>` start with one character. -/
theorem Token.first_inj {t u : Token} {c : UInt8} (ht : t.first = some c) (hu : u.first = some c) (hc : c ≠ greater) : u = t := by
  cases t <;> cases u <;> simp only [first, Option.some.injEq, reduceCtorEq] at ht hu <;> subst ht <;>
    first
    | rfl
    | exact absurd rfl hc
    | exact absurd hu (by decide)

/-- The first token is the one asked for. -/
theorem among_cons {c : UInt8} {t : Token} (ht : t.first = some c) (hc : c ≠ greater) (h : among [c] ts = true) :
    ∃ rest, ts = t :: rest := by
  cases ts with
  | nil => cases h
  | cons u rest =>
    have hu : u.first = some c := by
      obtain ⟨d, hd, hdc⟩ := (Option.any_eq_true ..).mp h
      rw [hd, List.mem_singleton.mp (strchr_iff.mp hdc)]
    exact ⟨rest, by rw [Token.first_inj ht hu hc]⟩

theorem among_redirects (h : among [60, 62] ts = true) : ∃ t rest mode fd, ts = t :: rest ∧ Redirects t mode fd := by
  cases ts with
  | nil => cases h
  | cons t rest =>
    cases t with
    | less => exact ⟨_, _, _, _, rfl, .input⟩
    | great => exact ⟨_, _, _, _, rfl, .output⟩
    | append => exact ⟨_, _, _, _, rfl, .append⟩
    | _ => cases h

theorem parseredirs_ends (hes : mem es = 0) (hn : ts.length < n) (cmd : Cmd) :
    Descent.Ends (Left mem es) (parseredirs mem es n cmd) ts
      fun c rest => ∃ front rs, ts = front ++ rest ∧ Redirs front rs ∧ c = cmd.within rs := by
  induction n generalizing ts cmd with
  | zero => omega
  | succ n ih =>
    rw [parseredirs]
    apply (peek_takes hes (by decide) ts).bind_ends
    by_cases hsome : among [60, 62] ts = true
    · obtain ⟨t, ts, mode, fd, rfl, hsign⟩ := among_redirects hsome
      rw [if_pos hsome]
      apply (gettok_takes hes t ts).bind_ends
      apply (gettoken_ends hes ts).bind
      intro r ts' hfound
      cases hfound with
      | none => exact Descent.Ends.stop _
      | mark ht =>
        simp only [if_pos (Token.mark_code ht).1]
        exact Descent.Ends.stop _
      | word q eq =>
        simp only [ne_eq, not_true_eq_false, if_false]
        rw [hsign.redirect]
        apply (ih (by simp only [List.length_cons] at hn; omega) _).mono
        rintro c rest ⟨front, rs, rfl, hrs, rfl⟩
        exact ⟨_, _, rfl, hrs.cons hsign, rfl⟩
    · rw [if_neg hsome]
      exact Descent.Ends.ret ⟨[], [], rfl, .nil, rfl⟩

theorem parseargs_ends (hes : mem es = 0) (hn : ts.length < n) (ws' : List (Nat × Nat)) (rs' : List Redir)
    (hmax : ws'.length < maxargs) :
    Descent.Ends (Left mem es) (parseargs mem es n ((Cmd.execcmd ws').within rs') ws'.length) ts
      fun c rest => ∃ front ws rs, ts = front ++ rest ∧ Args front ws rs ∧ (ws' ++ ws).length < maxargs ∧
        c = (Cmd.execcmd (ws' ++ ws)).within (rs' ++ rs) := by
  induction n generalizing ts ws' rs' with
  | zero => omega
  | succ n ih =>
    have hnone : ∀ rest, Descent.Ends (Left mem es) (pure ((Cmd.execcmd ws').within rs') : Parse Cmd) rest
        fun c rest' => ∃ front ws rs, rest = front ++ rest' ∧ Args front ws rs ∧ (ws' ++ ws).length < maxargs ∧
          c = (Cmd.execcmd (ws' ++ ws)).within (rs' ++ rs) :=
      fun rest => Descent.Ends.ret ⟨[], [], [], rfl, .nil, by simpa using hmax, by simp⟩
    rw [parseargs]
    apply (peek_takes hes (by decide) ts).bind_ends
    split
    · exact hnone ts
    · apply (gettoken_ends hes ts).bind
      intro r ts' hfound
      cases hfound with
      | none => exact hnone []
      | mark ht =>
        simp only [if_neg (Token.mark_code ht).2, if_pos (Token.mark_code ht).1]
        exact Descent.Ends.stop _
      | word q eq =>
        simp only [ne_eq, not_true_eq_false, if_false, if_neg (show letterA ≠ 0 by decide)]
        split
        · exact Descent.Ends.stop _
        · next hroom =>
          rw [List.length_cons] at hn
          rw [setArg_execcmd]
          apply (parseredirs_ends hes (by omega) _).bind
          rintro c ts ⟨front, rs, rfl, hrs, rfl⟩
          rw [← within_append]
          have hargs := ih (show ts.length < n by simp only [List.length_append] at hn; omega) (ws' ++ [(q, eq)]) (rs' ++ rs)
            (by simpa using hroom)
          rw [List.length_append, List.length_singleton] at hargs
          apply hargs.mono
          rintro c rest ⟨front', ws, rs'', rfl, hws, hlt, rfl⟩
          refine ⟨.word q eq :: front ++ front', (q, eq) :: ws, rs ++ rs'', ?_, hws.cons hrs, by simpa using hlt, by simp⟩
          simp

theorem parsebacks_ends (hes : mem es = 0) (hn : ts.length < n) (cmd : Cmd) :
    Descent.Ends (Left mem es) (parsebacks mem es n cmd) ts
      fun c rest => ∃ k, ts = List.replicate k .amp ++ rest ∧ c = Cmd.backcmd^[k] cmd := by
  induction n generalizing ts cmd with
  | zero => omega
  | succ n ih =>
    rw [parsebacks]
    apply (peek_takes hes (by decide) ts).bind_ends
    by_cases hsome : among [38] ts = true
    · obtain ⟨ts, rfl⟩ := among_cons (t := .amp) rfl (by decide) hsome
      rw [if_pos hsome]
      apply (gettok_takes hes .amp ts).bind_ends
      apply (ih (by simpa using hn) _).mono
      rintro c rest ⟨k, rfl, rfl⟩
      exact ⟨k + 1, rfl, rfl⟩
    · rw [if_neg hsome]
      exact Descent.Ends.ret ⟨0, rfl, rfl⟩

/-- **Where the parser returns, it has taken a phrase.** -/
theorem parse_ends (hes : mem es = 0) {N : Phrase} (hn : 4 * ts.length + N.slack ≤ n) :
    Descent.Ends (Left mem es) (N.parse mem es n) ts fun c rest => ∃ front, ts = front ++ rest ∧ Derives N front c := by
  induction n using Nat.strong_induction_on generalizing N ts with
  | _ n ih =>
    cases N with
    | line =>
      simp only [Phrase.slack] at hn
      obtain ⟨n, rfl⟩ : ∃ m, n = m + 1 := ⟨n - 1, by omega⟩
      show Descent.Ends _ (parseline mem es (n + 1)) _ _
      rw [parseline]
      have hpipe := ih n (Nat.lt_succ_self n) (show 4 * ts.length + Phrase.pipe.slack ≤ n by simp only [Phrase.slack]; omega)
      apply hpipe.bind
      rintro c ts ⟨front, rfl, hc⟩
      rw [List.length_append] at hn
      apply (parsebacks_ends hes (by omega) c).bind
      rintro c ts ⟨k, rfl, rfl⟩
      rw [List.length_append] at hn
      apply (peek_takes hes (by decide) ts).bind_ends
      by_cases hsome : among [59] ts = true
      · obtain ⟨ts, rfl⟩ := among_cons (t := .semi) rfl (by decide) hsome
        rw [List.length_cons] at hn
        rw [if_pos hsome]
        apply (gettok_takes hes .semi ts).bind_ends
        have hline := ih n (Nat.lt_succ_self n) (show 4 * ts.length + Phrase.line.slack ≤ n by simp only [Phrase.slack]; omega)
        apply hline.bind
        rintro d rest ⟨front', rfl, hd⟩
        refine Descent.Ends.ret ⟨_, ?_, .list k hc hd⟩
        simp
      · rw [if_neg hsome]
        refine Descent.Ends.ret ⟨_, ?_, .last k hc⟩
        simp
    | pipe =>
      simp only [Phrase.slack] at hn
      obtain ⟨n, rfl⟩ : ∃ m, n = m + 1 := ⟨n - 1, by omega⟩
      show Descent.Ends _ (parsepipe mem es (n + 1)) _ _
      rw [parsepipe]
      have hexec := ih n (Nat.lt_succ_self n) (show 4 * ts.length + Phrase.exec.slack ≤ n by simp only [Phrase.slack]; omega)
      apply hexec.bind
      rintro c ts ⟨front, rfl, hc⟩
      rw [List.length_append] at hn
      apply (peek_takes hes (by decide) ts).bind_ends
      by_cases hsome : among [124] ts = true
      · obtain ⟨ts, rfl⟩ := among_cons (t := .bar) rfl (by decide) hsome
        rw [List.length_cons] at hn
        rw [if_pos hsome]
        apply (gettok_takes hes .bar ts).bind_ends
        have hpipe := ih n (Nat.lt_succ_self n) (show 4 * ts.length + Phrase.pipe.slack ≤ n by simp only [Phrase.slack]; omega)
        apply hpipe.bind
        rintro d rest ⟨front', rfl, hd⟩
        refine Descent.Ends.ret ⟨_, ?_, .pipe hc hd⟩
        simp
      · rw [if_neg hsome]
        exact Descent.Ends.ret ⟨front, rfl, .single hc⟩
    | exec =>
      simp only [Phrase.slack] at hn
      obtain ⟨n, rfl⟩ : ∃ m, n = m + 1 := ⟨n - 1, by omega⟩
      show Descent.Ends _ (parseexec mem es (n + 1)) _ _
      rw [parseexec]
      apply (peek_takes hes (by decide) ts).bind_ends
      by_cases hsome : among [40] ts = true
      · obtain ⟨ts, rfl⟩ := among_cons (t := .lparen) rfl (by decide) hsome
        rw [List.length_cons] at hn
        obtain ⟨n, rfl⟩ : ∃ m, n = m + 1 := ⟨n - 1, by omega⟩
        rw [if_pos hsome, parseblock]
        apply (peek_takes hes (by decide) _).bind_ends
        rw [if_pos hsome]
        apply (gettok_takes hes .lparen ts).bind_ends
        have hline := ih n (by omega) (show 4 * ts.length + Phrase.line.slack ≤ n by simp only [Phrase.slack]; omega)
        apply hline.bind
        rintro c ts ⟨front, rfl, hc⟩
        rw [List.length_append] at hn
        apply (peek_takes hes (by decide) ts).bind_ends
        by_cases hclose : among [41] ts = true
        · obtain ⟨ts, rfl⟩ := among_cons (t := .rparen) rfl (by decide) hclose
          rw [List.length_cons] at hn
          rw [if_pos hclose]
          apply (gettok_takes hes .rparen ts).bind_ends
          apply (parseredirs_ends hes (by omega) c).mono
          rintro c rest ⟨front', rs, rfl, hrs, rfl⟩
          refine ⟨_, ?_, .block hc hrs⟩
          simp
        · rw [if_neg hclose]
          exact Descent.Ends.stop _
      · rw [if_neg hsome]
        apply (parseredirs_ends hes (by omega) (.execcmd [])).bind
        rintro c ts ⟨front, rs, rfl, hrs, rfl⟩
        rw [List.length_append] at hn
        apply (parseargs_ends hes (by omega) [] rs (by decide)).mono
        rintro c rest ⟨front', ws, rs', rfl, hws, hlt, rfl⟩
        refine ⟨_, ?_, .simple hrs hws hlt⟩
        simp

end Ends

/-! ### The words afterwards -/

theorem nulterminate_execcmd (argv : List (Nat × Nat)) (mem : Nat → UInt8) (a : Nat) :
    nulterminate (.execcmd argv) mem a = if a ∈ argv.map Prod.snd then 0 else mem a := by
  induction argv generalizing mem with
  | nil => rfl
  | cons w argv ih =>
    have hnext := ih (Function.update mem w.2 0)
    simp only [nulterminate, List.foldl_cons, List.map_cons, List.mem_cons] at hnext ⊢
    rw [hnext]
    by_cases hin : a ∈ argv.map Prod.snd
    · simp [hin]
    · by_cases ha : a = w.2 <;> simp [hin, ha]

/-- Zeros stand behind the words, and nothing else changes. -/
theorem nulterminate_apply (cmd : Cmd) (mem : Nat → UInt8) (a : Nat) :
    nulterminate cmd mem a = if a ∈ cmd.words.map Prod.snd then 0 else mem a := by
  induction cmd generalizing mem with
  | execcmd argv => exact nulterminate_execcmd argv mem a
  | redircmd cmd file efile mode fd ih =>
    simp only [nulterminate, Cmd.words, Function.update_apply, ih, List.map_append, List.mem_append, List.map_cons,
      List.map_nil, List.mem_singleton]
    by_cases ha : a = efile
    · simp [ha]
    · by_cases hin : a ∈ cmd.words.map Prod.snd <;> simp [ha, hin]
  | pipecmd left right ihl ihr | listcmd left right ihl ihr =>
    simp only [nulterminate, Cmd.words, ihl, ihr, List.map_append, List.mem_append]
    by_cases hr : a ∈ right.words.map Prod.snd
    · simp [hr]
    · by_cases hl : a ∈ left.words.map Prod.snd <;> simp [hr, hl]
  | backcmd cmd ih => exact ih mem

theorem words_within (cmd : Cmd) (rs : List Redir) : (cmd.within rs).words = cmd.words ++ rs.map fun r => (r.file, r.efile) := by
  induction rs generalizing cmd with
  | nil => exact (List.append_nil _).symm
  | cons r rs ih =>
    show ((Cmd.redircmd cmd r.file r.efile r.mode r.fd).within rs).words = _
    rw [ih]
    simp [Cmd.words]

theorem words_backcmd (k : Nat) (cmd : Cmd) : (Cmd.backcmd^[k] cmd).words = cmd.words := by
  induction k generalizing cmd with
  | zero => rfl
  | succ k ih => exact ih _

theorem Redirs.words {ts : List Token} {rs : List Redir} (h : Redirs ts rs) : ∀ r ∈ rs, .word r.file r.efile ∈ ts := by
  induction h with
  | nil => simp
  | cons _ _ ih =>
    intro r hr
    rcases List.mem_cons.mp hr with rfl | hr
    · simp
    · simp [ih r hr]

theorem Args.words {ts : List Token} {ws : List (Nat × Nat)} {rs : List Redir} (h : Args ts ws rs) :
    (∀ w ∈ ws, .word w.1 w.2 ∈ ts) ∧ ∀ r ∈ rs, .word r.file r.efile ∈ ts := by
  induction h with
  | nil => simp
  | cons hr _ ih =>
    refine ⟨fun w hw => ?_, fun r hmem => ?_⟩
    · rcases List.mem_cons.mp hw with rfl | hw
      · simp
      · simp [ih.1 w hw]
    · rcases List.mem_append.mp hmem with hmem | hmem
      · simp [hr.words r hmem]
      · simp [ih.2 r hmem]

/-- The words of the tree are words of the line. -/
theorem Derives.words {N : Phrase} {ts : List Token} {c : Cmd} (h : Derives N ts c) : ∀ w ∈ c.words, .word w.1 w.2 ∈ ts := by
  induction h with
  | last k _ ih =>
    rw [words_backcmd]
    exact fun w hw => List.mem_append_left _ (ih w hw)
  | list k _ _ ih ih' =>
    simp only [Cmd.words, words_backcmd]
    intro w hw
    rcases List.mem_append.mp hw with hw | hw
    · simp [ih w hw]
    · simp [ih' w hw]
  | single _ ih => exact ih
  | pipe _ _ ih ih' =>
    intro w hw
    rcases List.mem_append.mp hw with hw | hw
    · simp [ih w hw]
    · simp [ih' w hw]
  | block _ hr ih =>
    rw [words_within]
    intro w hw
    rcases List.mem_append.mp hw with hw | hw
    · simp [ih w hw]
    · obtain ⟨r, hmem, rfl⟩ := List.mem_map.mp hw
      simp [hr.words r hmem]
  | simple hr h hmax =>
    rw [words_within]
    intro w hw
    rcases List.mem_append.mp hw with hw | hw
    · simp [h.words.1 w hw]
    · obtain ⟨r, hmem, rfl⟩ := List.mem_map.mp hw
      rcases List.mem_append.mp hmem with hmem | hmem
      · simp [hr.words r hmem]
      · simp [h.words.2 r hmem]

/-- The characters of a word of the line at `s`. -/
def wordOf (line : List UInt8) (s : Nat) (w : Nat × Nat) : List UInt8 := (line.drop (w.1 - s)).take (w.2 - w.1)

theorem strlen?_eq {mem : Nat → UInt8} {s n : Nat} {line : List UInt8} (h : StringAt mem s line) (hn : line.length < n) :
    strlen? mem n s = some line.length := by
  induction line generalizing s n with
  | nil =>
    obtain ⟨n, rfl⟩ := Nat.exists_eq_succ_of_ne_zero (Nat.ne_of_gt hn)
    rw [strlen?, if_pos h.nul_empty]
    rfl
  | cons c line ih =>
    obtain ⟨n, rfl⟩ := Nat.exists_eq_succ_of_ne_zero (Nat.ne_of_gt (Nat.zero_lt_of_lt hn))
    rw [strlen?, if_neg h.head_ne_zero, ih h.tail (by simpa using hn)]
    rfl

section Lines
variable {mem : Nat → UInt8} {s n : Nat} {line : List UInt8} {ts : List Token} {cmd : Cmd}

/-- Each token is a character of the line at least, and a word ends inside. -/
theorem Left.inside {es p : Nat} (hes : mem es = 0) (h : Left mem es p ts) :
    ts.length ≤ es - p ∧ ∀ q eq, .word q eq ∈ ts → eq ≤ es := by
  have hreads := h.reads
  induction hreads with
  | nul _ => exact ⟨Nat.zero_le _, fun _ _ hw => by cases hw⟩
  | blank hblank rest ih =>
    obtain ⟨hlen, hwords⟩ := ih (h.later (Nat.le_succ _) (lt_end hes h.le (blank_nonzero hblank)) rest)
    exact ⟨by omega, hwords⟩
  | append hg hg' rest ih =>
    have hlt := lt_end hes h.le (by rw [hg]; decide)
    have hlt' := lt_end hes (Nat.succ_le_of_lt hlt) (by rw [hg']; decide)
    obtain ⟨hlen, hwords⟩ := ih (h.later (by omega) hlt' rest)
    refine ⟨by rw [List.length_cons]; omega, fun q eq hw => ?_⟩
    rcases List.mem_cons.mp hw with hw | hw
    · cases hw
    · exact hwords q eq hw
  | mark _ hfirst _ rest ih =>
    have hlt := lt_end hes h.le (symbol_nonzero (Token.first_symbol hfirst))
    obtain ⟨hlen, hwords⟩ := ih (h.later (Nat.le_succ _) hlt rest)
    refine ⟨by rw [List.length_cons]; omega, fun q eq hw => ?_⟩
    rcases List.mem_cons.mp hw with rfl | hw
    · cases hfirst
    · exact hwords q eq hw
  | @word p q ts hpq hword _ rest ih =>
    have hq : q ≤ es := by
      by_contra hlt
      exact (hword es h.le (by omega)).not_zero hes
    obtain ⟨hlen, hwords⟩ := ih (h.later hpq.le hq rest)
    refine ⟨by rw [List.length_cons]; omega, fun q' eq hw => ?_⟩
    rcases List.mem_cons.mp hw with hw | hw
    · cases hw
      exact hq
    · exact hwords q' eq hw

theorem left_line (hline : StringAt mem s line) (h : Reads mem s ts) : Left mem (s + line.length) s ts := by
  refine ⟨Nat.le_add_right .., fun a ha hlt => ?_, h⟩
  obtain ⟨i, rfl⟩ := Nat.exists_eq_add_of_le ha
  have hi := List.getElem?_eq_getElem (show i < line.length by omega)
  rw [hline.chars i _ hi]
  exact hline.nonzero _ (List.getElem_mem _)

/-- The fuel that is enough for a line. -/
def enough (line : List UInt8) : Nat := 4 * line.length + 4

/-- What `parsecmd` makes of what `parseline` returns. -/
theorem parsecmd_line (hline : StringAt mem s line) (hn : enough line ≤ n) {s' : Nat}
    (hparse : parseline mem (s + line.length) n s = some (.ok (cmd, s'))) (hleft : Left mem (s + line.length) s' ts) :
    parsecmd n mem s = some (if ts = [] then .ok (cmd, nulterminate cmd mem) else .error "syntax") := by
  obtain ⟨hleft, hb⟩ := hleft.settle hline.nul
  have hend := hleft.settled_iff hline.nul hb
  have hlen := strlen?_eq hline (n := n) (by unfold enough at hn; omega)
  have hpeek : peek mem (s + line.length) [] s' = some (.ok (_, skipBlanks mem (s + line.length) s')) := rfl
  unfold parsecmd
  simp only [hlen, Parser.andThen_ok hparse, Parser.andThen_ok hpeek]
  by_cases hts : ts = []
  · rw [if_pos hts]
    show (if _ then _ else _) = _
    rw [if_neg (not_not.mpr (hend.mpr hts))]
  · rw [if_neg hts]
    show (if _ then _ else _) = _
    rw [if_pos fun h => hts (hend.mp h)]

theorem parsecmd_takes (hline : StringAt mem s line) (hn : enough line ≤ n) (hreads : Reads mem s ts) (h : Derives .line ts cmd) :
    parsecmd n mem s = some (.ok (cmd, nulterminate cmd mem)) := by
  have hleft := left_line hline hreads
  have hlen := (hleft.inside hline.nul).1
  have hfuel : 4 * ts.length + Phrase.line.slack ≤ n := by
    unfold enough at hn
    simp only [Phrase.slack]
    omega
  have hend : Follow Phrase.line.after [] := fun t ht => by cases ht
  have htakes := h.takes hline.nul hend hfuel
  rw [List.append_nil] at htakes
  obtain ⟨s', hparse, hleft'⟩ := htakes s hleft
  rw [parsecmd_line hline hn hparse hleft', if_pos rfl]

theorem parsecmd_ends (hline : StringAt mem s line) (hn : enough line ≤ n) :
    (∃ msg, parsecmd n mem s = some (.error msg)) ∨
      ∃ ts cmd, Reads mem s ts ∧ Derives .line ts cmd ∧ parsecmd n mem s = some (.ok (cmd, nulterminate cmd mem)) := by
  obtain ⟨ts, hreads⟩ := exists_reads hline.nul (Nat.le_add_right s line.length)
  have hleft := left_line hline hreads
  have hlen := (hleft.inside hline.nul).1
  have hfuel : 4 * ts.length + Phrase.line.slack ≤ n := by
    unfold enough at hn
    simp only [Phrase.slack]
    omega
  rcases parse_ends hline.nul hfuel s hleft with ⟨msg, hmsg⟩ | ⟨cmd, s', rest, hparse, hleft', front, rfl, hcmd⟩
  · refine .inl ⟨msg, ?_⟩
    have hstop : parseline mem (s + line.length) n s = some (.error msg) := hmsg
    unfold parsecmd
    simp only [strlen?_eq hline (n := n) (by unfold enough at hn; omega), Parser.andThen_error hstop]
  · rw [parsecmd_line hline hn hparse hleft']
    by_cases hrest : rest = []
    · rw [if_pos hrest]
      rw [hrest, List.append_nil] at hreads
      exact .inr ⟨front, cmd, hreads, hcmd, rfl⟩
    · rw [if_neg hrest]
      exact .inl ⟨_, rfl⟩

theorem wordOf_getElem? (text : List UInt8) (s : Nat) (w : Nat × Nat) {i : Nat} (hi : i < w.2 - w.1) :
    (wordOf text s w)[i]? = text[w.1 - s + i]? := by
  rw [wordOf, List.getElem?_take_of_lt hi, List.getElem?_drop]

/-- **Each word stands in the memory afterwards**: no zero has been written into another one. -/
theorem words_kept (hline : StringAt mem s line) (hreads : Reads mem s ts) (h : Derives .line ts cmd) :
    ∀ w ∈ cmd.words, StringAt (nulterminate cmd mem) w.1 (wordOf line s w) := by
  intro w hw
  obtain ⟨hs, hlt, hword, _⟩ := hreads.word_mem (h.words w hw)
  have hin : w.2 ≤ s + line.length := ((left_line hline hreads).inside hline.nul).2 _ _ (h.words w hw)
  have hlength : (wordOf line s w).length = w.2 - w.1 := by
    rw [wordOf, List.length_take, List.length_drop]
    omega
  have hkept : ∀ a, w.1 ≤ a → a < w.2 → nulterminate cmd mem a = mem a := by
    intro a ha haw
    rw [nulterminate_apply, if_neg]
    intro hstop
    obtain ⟨w', hw', rfl⟩ := List.mem_map.mp hstop
    exact (hreads.word_mem (h.words w' hw')).2.2.2 (hword _ ha haw)
  constructor
  · intro i c hc
    have hi := (List.getElem?_eq_some_iff.mp hc).1
    rw [hkept _ (by omega) (by omega)]
    have hat := hline.chars (w.1 - s + i) c (by rwa [← wordOf_getElem? line s w (by omega)])
    rwa [← Nat.add_assoc, Nat.add_sub_cancel' hs] at hat
  · rw [hlength, Nat.add_sub_cancel' hlt.le, nulterminate_apply, if_pos (List.mem_map_of_mem hw)]
  · intro c hc
    exact hline.nonzero c (List.mem_of_mem_drop (List.mem_of_mem_take hc))

/-- What is promised of `parsecmd`: it returns the tree of a derivation if there is one, with the words as they stand
in the line, and stops if there is none. -/
structure Decides (n : Nat) (mem : Nat → UInt8) (s : Nat) (line : List UInt8) : Prop where
  accepts : ∀ cmd, (∃ mem', parsecmd n mem s = some (.ok (cmd, mem'))) ↔ Accepts mem s cmd
  words : ∀ cmd mem', parsecmd n mem s = some (.ok (cmd, mem')) → ∀ w ∈ cmd.words, StringAt mem' w.1 (wordOf line s w)
  rejects : (∀ cmd, ¬ Accepts mem s cmd) → ∃ msg, parsecmd n mem s = some (.error msg)

/-- **The parser decides its grammar**, on every line. -/
theorem parsecmd_decides {mem : Nat → UInt8} {s : Nat} {line : List UInt8} (hline : StringAt mem s line) :
    ∃ fuel, ∀ n, fuel ≤ n → Decides n mem s line := by
  refine ⟨enough line, fun n hn => ?_⟩
  constructor
  · intro cmd
    constructor
    · rintro ⟨mem', hok⟩
      rcases parsecmd_ends hline hn with ⟨msg, hmsg⟩ | ⟨ts, cmd', hreads, hcmd, hok'⟩
      · rw [hmsg] at hok
        cases hok
      · rw [hok'] at hok
        cases hok
        exact ⟨ts, hreads, hcmd⟩
    · rintro ⟨ts, hreads, hcmd⟩
      exact ⟨_, parsecmd_takes hline hn hreads hcmd⟩
  · intro cmd mem' hok
    rcases parsecmd_ends hline hn with ⟨msg, hmsg⟩ | ⟨ts, cmd', hreads, hcmd, hok'⟩
    · rw [hmsg] at hok
      cases hok
    · rw [hok'] at hok
      cases hok
      exact words_kept hline hreads hcmd
  · intro hnone
    rcases parsecmd_ends hline hn with hmsg | ⟨ts, cmd, hreads, hcmd, _⟩
    · exact hmsg
    · exact absurd ⟨ts, hreads, hcmd⟩ (hnone cmd)

/-- `ls>a<b`. -/
def lsBoth : List UInt8 := [108, 115, 62, 97, 60, 98]

/-- The first redirection is the inner one. -/
example : ((parsecmd 30 (lineAt lsBoth) 1).map fun r => r.toOption.map Prod.fst) =
    some (some (.redircmd (.redircmd (.execcmd [(1, 3)]) 4 5 (oWronly ||| oCreate ||| oTrunc) 1) 6 7 oRdonly 0)) := by
  decide

theorem parsecmd_decides_lsBoth : ∃ fuel, ∀ n, fuel ≤ n → Decides n (lineAt lsBoth) 1 lsBoth :=
  parsecmd_decides (stringAt_lineAt (by decide +kernel))

end Lines

end Farron.Sh
