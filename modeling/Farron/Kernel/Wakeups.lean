import Farron.Kernel.Sleep

/-! No wakeup is lost.

`want c d` says when a process may sleep on the channel `c`. A process about to sleep, or
asleep, on `c` finds it true, or the holder of the spin lock still owes it a wakeup
(`Watched`). Processes pay their debts before they release the lock: then nobody who
should be awake sleeps while the lock is free (`Watched.quiet`). -/
namespace Farron
open Resumption
variable {L ι χ δ π τ : Type}

/-- What a process holds and owes: whether it has the spin lock; the channel it is about
to sleep on, having taken its `p->lock` for that; the channel it sleeps on until a
scheduler resumes it; the processes it has yet to wake; and what else it owns. -/
structure Duty (ι χ τ : Type) where
  locked : Prop
  doze : Option χ
  nap : Option χ
  owe : χ → ι → Prop
  own : τ

namespace Duty

/-- Without the lock. -/
def out (own : τ) : Duty ι χ τ := ⟨False, none, none, fun _ _ => False, own⟩

/-- With the lock, owing wakeups. -/
def owing (own : τ) (owe : χ → ι → Prop) : Duty ι χ τ := ⟨True, none, none, owe, own⟩

/-- With the lock and no debts. -/
def held (own : τ) : Duty ι χ τ := owing own fun _ _ => False

end Duty

/-- Asleep on `c`, or about to be. -/
def Asleep (w : World ι χ δ) (t : Duty ι χ τ) (i : ι) (c : χ) : Prop :=
  (w.procs i).state = .sleeping ∧ (w.procs i).chan = some c ∨ t.doze = some c

/-- What is to be watched: when a process may sleep on a channel, what it owns then,
what is known of the data and of what the processes own of it, and the part of the
data that only the holder of the lock changes. -/
structure Watch (ι χ δ π τ : Type) where
  want : χ → δ → Prop
  able : χ → τ → Prop
  J : δ → (ι → τ) → Prop
  fix : δ → π

/-- The invariant. -/
structure Watched (W : Watch ι χ δ π τ) (w : World ι χ δ) (T : ι → Duty ι χ τ) : Prop where
  lk : ∀ i, w.lk = some i ↔ (T i).locked
  doze : ∀ i c, (T i).doze = some c → (w.procs i).lock = some i
  nap : ∀ i c, Asleep w (T i) i c → (T i).nap = some c
  able : ∀ i c, (T i).nap = some c → W.able c (T i).own
  waiting : ∀ i c, Asleep w (T i) i c → W.want c w.data ∨ ∃ k, (T k).locked ∧ (T k).owe c i
  own : W.J w.data fun i => (T i).own

/-- While the lock is free, whoever sleeps may sleep. -/
theorem Watched.quiet {W : Watch ι χ δ π τ} {w : World ι χ δ} {T : ι → Duty ι χ τ}
    (h : Watched W w T) (hlk : w.lk = none) {i : ι} {c : χ} (hs : (w.procs i).state = .sleeping)
    (hc : (w.procs i).chan = some c) : W.want c w.data ∧ W.able c (T i).own := by
  refine ⟨?_, h.able i c (h.nap i c (.inl ⟨hs, hc⟩))⟩
  obtain hw | ⟨k, hk, _⟩ := h.waiting i c (.inl ⟨hs, hc⟩)
  · exact hw
  · rw [← h.lk, hlk] at hk
    cases hk

/-- Nobody has the lock, and nobody sleeps. -/
theorem Watched.start {W : Watch ι χ δ π τ} {procs : ι → Proc ι χ} {d : δ} {own : ι → τ} (hprocs : ∀ j, (procs j).chan = none)
    (hJ : W.J d own) : Watched W ⟨procs, none, d⟩ fun j => .out (own j) := by
  have hawake : ∀ j c, ¬ Asleep (⟨procs, none, d⟩ : World ι χ δ) (.out (own j) : Duty ι χ τ) j c := by
    intro j c hs
    obtain ⟨_, hc⟩ | hd := hs
    · have hc : (procs j).chan = some c := hc
      rw [hprocs j] at hc
      cases hc
    · cases hd
  exact ⟨fun j => ⟨fun hj => (by cases hj), False.elim⟩, fun j c hd => (by cases hd), fun j c hs => absurd hs (hawake j c),
    fun j c hn => (by cases hn), fun j c hs => absurd hs (hawake j c), hJ⟩

/-- The rules: only the holder of the lock changes `fix` of the data. -/
def monitor (W : Watch ι χ δ π τ) (C : L → World ι χ δ → Prop) :
    Rules L Stop (World ι χ δ) (World ι χ δ) ι (Duty ι χ τ) where
  view := id
  inv := Watched W
  guar _ t w w' := ¬ t.locked → W.fix w'.data = W.fix w.data
  C := C
  G _ _ := True
  ok _ := True

/-! ### One process's tokens change -/

section Tokens
variable [DecidableEq ι] {T : ι → Duty ι χ τ} {i : ι} {t : Duty ι χ τ}

theorem own_update : (fun j => (Function.update T i t j).own) = Function.update (fun j => (T j).own) i t.own := by
  funext j
  by_cases hj : j = i
  · subst hj
    simp only [Function.update_self]
  · simp only [Function.update_of_ne hj]

theorem own_kept (h : t.own = (T i).own) : (fun j => (Function.update T i t j).own) = fun j => (T j).own := by
  rw [own_update, h]
  exact Function.update_eq_self i fun j => (T j).own

theorem locked_kept (h : t.locked ↔ (T i).locked) (j : ι) : (Function.update T i t j).locked ↔ (T j).locked := by
  by_cases hj : j = i
  · subst hj
    rw [Function.update_self]
    exact h
  · rw [Function.update_of_ne hj]

theorem Asleep.old {w w' : World ι χ δ} (ht : t.doze = none) {j : ι} {c : χ}
    (h : Asleep w' (Function.update T i t j) j c) (hp : w'.procs j = w.procs j := by rfl) : Asleep w (T j) j c := by
  unfold Asleep at h ⊢
  rw [hp] at h
  by_cases hj : j = i
  · subst hj
    rw [Function.update_self] at h
    obtain hs | hd := h
    · exact .inl hs
    · rw [ht] at hd
      cases hd
  · rw [Function.update_of_ne hj] at h
    exact h

theorem Watched.doze_old {W : Watch ι χ δ π τ} {w : World ι χ δ} (h : Watched W w T) (ht : t.doze = none) (j : ι)
    (c : χ) (hd : (Function.update T i t j).doze = some c) : (w.procs j).lock = some j := by
  by_cases hj : j = i
  · subst hj
    rw [Function.update_self, ht] at hd
    cases hd
  · rw [Function.update_of_ne hj] at hd
    exact h.doze j c hd

theorem nap_kept (h : t.nap = (T i).nap) (j : ι) : (Function.update T i t j).nap = (T j).nap := by
  by_cases hj : j = i
  · subst hj
    rw [Function.update_self]
    exact h
  · rw [Function.update_of_ne hj]

theorem Watched.able_kept {W : Watch ι χ δ π τ} {w : World ι χ δ} (h : Watched W w T)
    (ht : t.nap = none ∨ t.nap = (T i).nap ∧ t.own = (T i).own) (j : ι) (c : χ)
    (hn : (Function.update T i t j).nap = some c) : W.able c (Function.update T i t j).own := by
  by_cases hj : j = i
  · subst hj
    rw [Function.update_self] at hn ⊢
    obtain ht | ⟨h1, h2⟩ := ht
    · rw [ht] at hn
      cases hn
    · rw [h2]
      apply h.able j c
      rw [← h1]
      exact hn
  · rw [Function.update_of_ne hj] at hn ⊢
    exact h.able j c hn

end Tokens

section Rules
variable {W : Watch ι χ δ π τ} {C : L → World ι χ δ → Prop} {i : ι} {own : τ} {owe : χ → ι → Prop}

theorem Watched.locked_eq {w : World ι χ δ} {T : ι → Duty ι χ τ} (h : Watched W w T) {j k : ι}
    (hj : (T j).locked) (hk : (T k).locked) : j = k :=
  Option.some.inj (((h.lk j).mpr hj).symm.trans ((h.lk k).mpr hk))

/-- Only a lock or a process changes, neither data nor tokens do, and nobody falls asleep. -/
theorem Watched.procs {w w' : World ι χ δ} {T : ι → Duty ι χ τ} (h : Watched W w T) (hlk : w'.lk = w.lk)
    (hdata : w'.data = w.data) (hlock : ∀ j, (w.procs j).lock = some j → (w'.procs j).lock = some j)
    (hstate : ∀ j c, (w'.procs j).state = .sleeping → (w'.procs j).chan = some c →
      (w.procs j).state = .sleeping ∧ (w.procs j).chan = some c) : Watched W w' T := by
  have hold : ∀ j c, Asleep w' (T j) j c → Asleep w (T j) j c := by
    intro j c hs
    obtain ⟨hs, hc⟩ | hd := hs
    · exact .inl (hstate j c hs hc)
    · exact .inr hd
  refine ⟨?_, fun j c hd => hlock j (h.doze j c hd), fun j c hs => h.nap j c (hold j c hs), h.able, fun j c hs => ?_, ?_⟩
  · rw [hlk]
    exact h.lk
  · rw [hdata]
    exact h.waiting j c (hold j c hs)
  · rw [hdata]
    exact h.own

variable [DecidableEq ι]

/-- A judgement about a process that has noted `N` of what the lock protects. -/
abbrev Runs (W : Watch ι χ δ π τ) (C : L → World ι χ δ → Prop) (i : ι) {α : Type} (p : Kernel L ι χ δ α)
    (t : Duty ι χ τ) (N : π → Prop) (Q : α → Duty ι χ τ → π → Prop) : Prop :=
  (monitor W C).Judge i p t (fun w => N (W.fix w.data)) fun a t' w => Q a t' (W.fix w.data)

theorem runs_ret {α : Type} {a : α} {t : Duty ι χ τ} {N : π → Prop} {Q : α → Duty ι χ τ → π → Prop}
    (h : ∀ d, N d → Q a t d) : Runs W C i (.ret a) t N Q :=
  Rules.Judge.ret fun _ hN => h _ hN

theorem runs_post {α : Type} {p : Kernel L ι χ δ α} {t : Duty ι χ τ} {N : π → Prop}
    {Q Q' : α → Duty ι χ τ → π → Prop} (h : Runs W C i p t N Q) (hQ : ∀ a t' d, Q a t' d → Q' a t' d) :
    Runs W C i p t N Q' :=
  h.post fun a t' _ hq => hQ a t' _ hq

/-- Sequencing after a program that returns with a known token. -/
theorem runs_seq {α β : Type} {p : Kernel L ι χ δ α} {q : α → Kernel L ι χ δ β} {t : Duty ι χ τ}
    (u : α → Duty ι χ τ) {N : π → Prop} {F : α → π → Prop} {Q : β → Duty ι χ τ → π → Prop}
    (hp : Runs W C i p t N fun a t' d => t' = u a ∧ F a d) (hq : ∀ a, Runs W C i (q a) (u a) (F a) Q) :
    Runs W C i (p >>= q) t N Q :=
  Rules.Judge.seq hp hq

/-- Sequencing after a program that returns with one of a family of tokens. -/
theorem runs_some {α β κ : Type} {p : Kernel L ι χ δ α} {q : α → Kernel L ι χ δ β} {t : Duty ι χ τ}
    (u : α → κ → Duty ι χ τ) {N : π → Prop} {F : α → π → Prop} {Q : β → Duty ι χ τ → π → Prop}
    (hp : Runs W C i p t N fun a t' d => (∃ x, t' = u a x) ∧ F a d)
    (hq : ∀ a x, Runs W C i (q a) (u a x) (F a) Q) : Runs W C i (p >>= q) t N Q := by
  apply Rules.Judge.bind hp
  intro a t'
  apply Rules.Judge.known (fun _ _ => trivial)
  intro hx
  obtain ⟨x, rfl⟩ := hx
  exact hq a x

/-- The holder of the lock may note what it likes of what the lock protects. -/
theorem stable_locked {t : Duty ι χ τ} (ht : t.locked) {N : π → Prop} :
    (monitor W C).Stable i t fun w => N (W.fix w.data) := by
  intro j hj w w' T t' hI _ hT hg hN
  have hfree : ¬ (T j).locked := by
    intro hlk
    apply hj
    apply Watched.locked_eq hI hlk
    rw [hT]
    exact ht
  rw [hg hfree]
  exact hN

/-- A section: whoever sleeps after it may, or is owed a wakeup. -/
theorem runs_act {α : Type} {l : L} {f : World ι χ δ → Option (World ι χ δ)}
    {k : World ι χ δ → Kernel L ι χ δ α} {t : Duty ι χ τ} {N : π → Prop} {Q : α → Duty ι χ τ → π → Prop}
    (h : ∀ w T w', Watched W w T → T i = t → N (W.fix w.data) → C l w → f w = some w' →
      ∃ t' N', Watched W w' (Function.update T i t') ∧ (¬ t.locked → W.fix w'.data = W.fix w.data) ∧
        N' (W.fix w'.data) ∧ (t'.locked ∨ ∀ d, N' d) ∧ Runs W C i (k w) t' N' Q) :
    Runs W C i (.act l f k) t N Q := by
  apply Rules.Judge.act
  intro w T w' hI hT hN hC hf
  obtain ⟨t', N', hI', hg, hN', hst, hk⟩ := h w T w' hI hT hN hC hf
  refine ⟨trivial, t', _, hI', hg, hN', ?_, hk⟩
  obtain hl | hall := hst
  · exact stable_locked hl
  · intro _ _ _ w' _ _ _ _ _ _ _
    exact hall _

/-! ### The lock -/

section Sections
variable [Inhabited L] {N : π → Prop}

theorem runs_acquire (hN : ∀ d, N d) :
    Runs W C i (acquire i) (.out own) N fun _ t' _ => t' = .held own := by
  apply runs_act
  intro w T w' hI hT _ _ hf
  have hni : w.lk ≠ some i := by
    intro hlk
    have := (hI.lk i).mp hlk
    rw [hT] at this
    exact this
  by_cases hlk : w.lk = none
  · rw [if_pos hlk] at hf
    cases hf
    have hnone : ∀ j, ¬ (T j).locked := by
      intro j hj
      rw [← hI.lk, hlk] at hj
      cases hj
    refine ⟨.held own, N, ⟨fun j => ?_, hI.doze_old rfl, fun j c hs => ?_, hI.able_kept (.inl rfl), fun j c hs => ?_, ?_⟩,
      fun _ => rfl, hN _, .inr hN, ?_⟩
    · by_cases hj : j = i
      · subst hj
        rw [Function.update_self]
        exact ⟨fun _ => trivial, fun _ => rfl⟩
      · rw [Function.update_of_ne hj]
        exact ⟨fun hs => absurd (Option.some.inj hs).symm hj, fun ht => absurd ht (hnone j)⟩
    · rw [nap_kept (by rw [hT]; rfl)]
      exact hI.nap j c (hs.old rfl)
    · obtain hw | ⟨k, hk, _⟩ := hI.waiting j c (hs.old rfl)
      · exact .inl hw
      · exact absurd hk (hnone k)
    · rw [own_kept (by rw [hT]; rfl)]
      exact hI.own
    · show Runs W C i (if w.lk = some i then _ else _) _ _ _
      rw [if_neg hni]
      exact Rules.Judge.ret fun _ _ => rfl
  · rw [if_neg hlk, if_neg hni] at hf
    cases hf

/-- The lock is released once nobody who should be awake is owed a wakeup. -/
theorem runs_release {t : Duty ι χ τ} (ht : t.locked)
    (hpaid : ∀ w T, Watched W w T → T i = t → N (W.fix w.data) → ∀ c j, Asleep w (T j) j c → t.owe c j →
      W.want c w.data) :
    Runs W C i (release i) t N fun _ t' _ => t' = ⟨False, t.doze, t.nap, fun _ _ => False, t.own⟩ := by
  apply runs_act
  intro w T w' hI hT hN _ hf
  have hlk : w.lk = some i := by
    rw [hI.lk, hT]
    exact ht
  rw [if_pos hlk] at hf
  cases hf
  have hold : ∀ j c, Asleep { w with lk := none }
      (Function.update T i ⟨False, t.doze, t.nap, fun _ _ => False, t.own⟩ j) j c → Asleep w (T j) j c := by
    intro j c hs
    by_cases hj : j = i
    · subst hj
      rw [Function.update_self] at hs
      rw [hT]
      exact hs
    · rw [Function.update_of_ne hj] at hs
      exact hs
  refine ⟨⟨False, t.doze, t.nap, fun _ _ => False, t.own⟩, fun _ => True,
    ⟨fun j => ?_, fun j c hd => ?_, fun j c hs => ?_, hI.able_kept (.inr (by rw [hT]; exact ⟨rfl, rfl⟩)),
      fun j c hs => ?_, ?_⟩, fun _ => rfl, trivial, .inr fun _ => trivial, ?_⟩
  · constructor
    · intro h
      cases h
    · intro hj
      by_cases hji : j = i
      · subst hji
        rw [Function.update_self] at hj
        exact absurd hj id
      · rw [Function.update_of_ne hji] at hj
        exact absurd (hI.locked_eq hj ((hI.lk i).mp hlk)) hji
  · by_cases hj : j = i
    · subst hj
      rw [Function.update_self] at hd
      apply hI.doze j c
      rw [hT]
      exact hd
    · rw [Function.update_of_ne hj] at hd
      exact hI.doze j c hd
  · rw [nap_kept (by rw [hT])]
    exact hI.nap j c (hold j c hs)
  · obtain hw | ⟨k, hk, ho⟩ := hI.waiting j c (hold j c hs)
    · exact .inl hw
    · cases hI.locked_eq hk ((hI.lk i).mp hlk)
      rw [hT] at ho
      exact .inl (hpaid w T hI hT hN c j (hold j c hs) ho)
  · rw [own_kept (by rw [hT])]
    exact hI.own
  · show Runs W C i (if w.lk = some i then _ else _) _ _ _
    rw [if_pos hlk]
    exact Rules.Judge.ret fun _ _ => rfl

/-- The lock is released by a process with no debts. -/
theorem runs_release_held : Runs W C i (release i) (.held own) N fun _ t' _ => t' = .out own :=
  runs_release trivial fun _ _ _ _ _ _ _ _ h => absurd h id

end Sections

/-- A change of the data and of what the process owns: who sleeps is owed a wakeup if it
should no longer sleep. -/
theorem runs_data {α : Type} {l : L} {f : δ → δ} {k : World ι χ δ → Kernel L ι χ δ α} {t : Duty ι χ τ}
    {N : π → Prop} {Q : α → Duty ι χ τ → π → Prop} (hdoze : t.doze = none) (hnap : t.nap = none)
    (h : ∀ w T, Watched W w T → T i = t → N (W.fix w.data) → C l w → ∃ own' owe' N',
      W.J (f w.data) (Function.update (fun j => (T j).own) i own') ∧ N' (W.fix (f w.data)) ∧
        (t.locked ∨ W.fix (f w.data) = W.fix w.data ∧ ∀ d, N' d) ∧
        (∀ c j, Asleep w (T j) j c → W.want c w.data → W.want c (f w.data) ∨ t.locked ∧ owe' c j) ∧
        (∀ c j, Asleep w (T j) j c → t.owe c j → W.want c (f w.data) ∨ owe' c j) ∧
        Runs W C i (k w) { t with own := own', owe := owe' } N' Q) :
    Runs W C i (.act l (fun w => some { w with data := f w.data }) k) t N Q := by
  apply runs_act
  intro w T w' hI hT hN hC hf
  cases hf
  obtain ⟨own', owe', N', hJ, hN', hst, hwant, howe, hk⟩ := h w T hI hT hN hC
  refine ⟨{ t with own := own', owe := owe' }, N', ⟨fun j => ?_, hI.doze_old hdoze, fun j c hs => ?_,
    hI.able_kept (.inl hnap), fun j c hs => ?_, ?_⟩, fun hl => ?_, hN', ?_, hk⟩
  · rw [locked_kept (by rw [hT])]
    exact hI.lk j
  · rw [nap_kept (by rw [hT])]
    exact hI.nap j c (hs.old (t := { t with own := own', owe := owe' }) hdoze)
  · have hs' : Asleep w (T j) j c := hs.old (t := { t with own := own', owe := owe' }) hdoze
    obtain hw | ⟨m, hm, ho⟩ := hI.waiting j c hs'
    · obtain h' | ⟨hl, h'⟩ := hwant c j hs' hw
      · exact .inl h'
      · refine .inr ⟨i, ?_⟩
        rw [Function.update_self]
        exact ⟨hl, h'⟩
    · by_cases hmi : m = i
      · subst hmi
        rw [hT] at hm ho
        obtain h' | h' := howe c j hs' ho
        · exact .inl h'
        · refine .inr ⟨m, ?_⟩
          rw [Function.update_self]
          exact ⟨hm, h'⟩
      · refine .inr ⟨m, ?_⟩
        rw [Function.update_of_ne hmi]
        exact ⟨hm, ho⟩
  · rw [own_update]
    exact hJ
  · obtain hl' | ⟨hfix, _⟩ := hst
    · exact absurd hl' hl
    · exact hfix
  · obtain hl | ⟨_, hall⟩ := hst
    · exact .inl hl
    · exact .inr hall

/-- A section on the data under the lock. -/
theorem runs_update {l : L} {f : δ → δ} {own' : τ} {owe' : χ → ι → Prop} {N N' : π → Prop}
    (h : ∀ w T, Watched W w T → T i = .owing own owe → N (W.fix w.data) → C l w →
      W.J (f w.data) (Function.update (fun j => (T j).own) i own') ∧ N' (W.fix (f w.data)) ∧
        ∀ c j, Asleep w (T j) j c → W.want c w.data ∨ owe c j → W.want c (f w.data) ∨ owe' c j) :
    Runs W C i (update l f) (.owing own owe) N fun _ t' d => t' = .owing own' owe' ∧ N' d := by
  apply runs_data rfl rfl
  intro w T hI hT hN hC
  obtain ⟨hJ, hN', hw⟩ := h w T hI hT hN hC
  refine ⟨own', owe', N', hJ, hN', .inl trivial, fun c j hs hc => ?_, fun c j hs ho => hw c j hs (.inr ho),
    runs_ret fun _ hd => ⟨rfl, hd⟩⟩
  obtain h' | h' := hw c j hs (.inl hc)
  · exact .inl h'
  · exact .inr ⟨trivial, h'⟩

/-- What the processes own changes hands while they neither hold the lock nor sleep. -/
theorem Watched.pass {w : World ι χ δ} {T : ι → Duty ι χ τ} (h : Watched W w T) {j : ι} {x x' y y' : τ}
    (hi : T i = .out x) (hj : T j = .out y) (hij : i ≠ j)
    (hJ : W.J w.data (Function.update (Function.update (fun k => (T k).own) i x') j y')) :
    Watched W w (Function.update (Function.update T i (.out x')) j (.out y')) := by
  have hkept : ∀ k, ∃ z, Function.update (Function.update T i (.out x')) j (.out y') k = { T k with own := z } ∧
      (z = (T k).own ∨ (T k).nap = none) := by
    intro k
    by_cases hkj : k = j
    · subst hkj
      rw [Function.update_self, hj]
      exact ⟨y', rfl, .inr rfl⟩
    · rw [Function.update_of_ne hkj]
      by_cases hki : k = i
      · subst hki
        rw [Function.update_self, hi]
        exact ⟨x', rfl, .inr rfl⟩
      · rw [Function.update_of_ne hki]
        exact ⟨_, rfl, .inl rfl⟩
  refine ⟨fun k => ?_, fun k c hd => ?_, fun k c hs => ?_, fun k c hn => ?_, fun k c hs => ?_, ?_⟩
  · obtain ⟨z, hz, _⟩ := hkept k
    rw [hz]
    exact h.lk k
  · obtain ⟨z, hz, _⟩ := hkept k
    rw [hz] at hd
    exact h.doze k c hd
  · obtain ⟨z, hz, _⟩ := hkept k
    rw [hz] at hs ⊢
    exact h.nap k c hs
  · obtain ⟨z, hz, hown⟩ := hkept k
    rw [hz] at hn ⊢
    obtain rfl | hno := hown
    · exact h.able k c hn
    · exact absurd (hno.symm.trans hn) (fun h => nomatch h)
  · obtain ⟨z, hz, _⟩ := hkept k
    rw [hz] at hs
    obtain hw | ⟨m, hm, ho⟩ := h.waiting k c hs
    · exact .inl hw
    · obtain ⟨z', hz', _⟩ := hkept m
      refine .inr ⟨m, ?_⟩
      rw [hz']
      exact ⟨hm, ho⟩
  · rw [own_update, own_update]
    exact hJ

/-- A section that only looks. -/
theorem runs_look {α : Type} {l : L} {k : World ι χ δ → Kernel L ι χ δ α} {t : Duty ι χ τ} {N : π → Prop}
    {Q : α → Duty ι χ τ → π → Prop} (hk : ∀ w, C l w → Runs W C i (k w) t N Q) :
    Runs W C i (.act l some k) t N Q :=
  Rules.Judge.glance fun w _ _ _ _ hC => ⟨trivial, hk w hC⟩

/-- The holder of the lock may rely on what it reads. -/
theorem runs_fetch [Inhabited L] {t : Duty ι χ τ} {N : π → Prop} (ht : t.locked) :
    Runs W C i fetch t N fun d t' x => t' = t ∧ (N x ∧ x = W.fix d) := by
  apply Rules.Judge.look
  intro w T hI hT hN _
  exact ⟨trivial, fun w' => W.fix w'.data = W.fix w.data, rfl, stable_locked (N := fun x => x = W.fix w.data) ht,
    Rules.Judge.ret fun _ hc => ⟨rfl, hc⟩⟩

/-! ### Sleeping and waking -/

section Sleeping
variable [Inhabited L] {N : π → Prop}

omit [Inhabited L] in
/-- A section on the process's own `struct proc`, after which it counts as asleep on `doze`,
until it is resumed from `nap`. -/
theorem runs_self {l : L} {f : World ι χ δ → Option (World ι χ δ)} {t t' : Duty ι χ τ} (doze nap : Option χ)
    (ht' : t' = { t with doze := doze, nap := nap }) (hN : t.locked ∨ ∀ d, N d)
    (hf : ∀ w w', f w = some w' → ∃ g, w' = w.setProc i g ∧
      (∀ c, doze = some c → (g (w.procs i)).lock = some i ∨ t.doze = some c ∧ (g (w.procs i)).lock = (w.procs i).lock) ∧
      ∀ c, (g (w.procs i)).state = .sleeping → (g (w.procs i)).chan = some c →
        (t.nap = some c → nap = some c) ∧
          (t.doze = some c ∨ (w.procs i).state = .sleeping ∧ (w.procs i).chan = some c))
    (hdoze : ∀ c d, doze = some c → N (W.fix d) → nap = some c ∧ (t.doze = some c ∨ W.want c d))
    (hnap : ∀ c, nap = some c → t.nap = some c ∨ W.able c t.own) :
    Runs W C i (.act l f fun _ => .ret ()) t N fun _ t₁ d => t₁ = t' ∧ N d := by
  subst ht'
  apply runs_act
  intro w T w' hI hT hN' _ hfw
  obtain ⟨g, rfl, hlock, hsleep⟩ := hf w w' hfw
  refine ⟨{ t with doze := doze, nap := nap }, N, ⟨fun j => ?_, fun j c hd => ?_, fun j c hs => ?_,
    fun j c hn => ?_, fun j c hs => ?_, ?_⟩, fun _ => rfl, hN', hN, Rules.Judge.ret fun _ hd => ⟨rfl, hd⟩⟩
  · rw [locked_kept (by rw [hT])]
    exact hI.lk j
  · by_cases hj : j = i
    · subst hj
      rw [Function.update_self] at hd
      rw [World.setProc_same]
      obtain h | ⟨h, hl⟩ := hlock c hd
      · exact h
      · rw [hl]
        apply hI.doze j c
        rw [hT]
        exact h
    · rw [Function.update_of_ne hj] at hd
      rw [World.setProc_ne _ _ _ _ hj]
      exact hI.doze j c hd
  · by_cases hj : j = i
    · subst hj
      rw [Function.update_self] at hs ⊢
      obtain ⟨hst, hch⟩ | hd := hs
      · rw [World.setProc_same] at hst hch
        obtain ⟨hn, hold⟩ := hsleep c hst hch
        have := hI.nap j c
        rw [hT] at this
        exact hn (this hold.symm)
      · exact (hdoze c w.data hd hN').1
    · rw [Function.update_of_ne hj] at hs ⊢
      apply hI.nap j c
      obtain h | h := hs
      · rw [World.setProc_ne _ _ _ _ hj] at h
        exact .inl h
      · exact .inr h
  · by_cases hj : j = i
    · subst hj
      rw [Function.update_self] at hn ⊢
      obtain h | h := hnap c hn
      · have := hI.able j c
        rw [hT] at this
        exact this h
      · exact h
    · rw [Function.update_of_ne hj] at hn ⊢
      exact hI.able j c hn
  · have howe : (W.want c w.data ∨ ∃ m, (T m).locked ∧ (T m).owe c j) →
        W.want c w.data ∨ ∃ m, (Function.update T i { t with doze := doze, nap := nap } m).locked ∧
          (Function.update T i { t with doze := doze, nap := nap } m).owe c j := by
      intro h
      obtain hw | ⟨m, hm, ho⟩ := h
      · exact .inl hw
      · refine .inr ⟨m, ?_⟩
        by_cases hmi : m = i
        · subst hmi
          rw [hT] at hm ho
          rw [Function.update_self]
          exact ⟨hm, ho⟩
        · rw [Function.update_of_ne hmi]
          exact ⟨hm, ho⟩
    apply howe
    by_cases hj : j = i
    · subst hj
      rw [Function.update_self] at hs
      obtain ⟨hst, hch⟩ | hd := hs
      · rw [World.setProc_same] at hst hch
        apply hI.waiting j c
        rw [hT]
        exact (hsleep c hst hch).2.symm
      · obtain h | h := (hdoze c w.data hd hN').2
        · apply hI.waiting j c
          rw [hT]
          exact .inr h
        · exact .inl h
    · rw [Function.update_of_ne hj] at hs
      apply hI.waiting j c
      obtain h | h := hs
      · rw [World.setProc_ne _ _ _ _ hj] at h
        exact .inl h
      · exact .inr h
  · rw [own_kept (by rw [hT])]
    exact hI.own

/-- `acquire(&p->lock)`: from here on the process counts as asleep. -/
theorem runs_acquireProc {t t' : Duty ι χ τ} (c : χ) (ht' : t' = { t with doze := some c, nap := some c })
    (hN : t.locked ∨ ∀ d, N d) (hnap : t.nap = none) (hc : ∀ d, N (W.fix d) → W.want c d) (hable : W.able c t.own) :
    Runs W C i (acquireProc i) t N fun _ t₁ d => t₁ = t' ∧ N d := by
  refine runs_self (some c) (some c) ht' hN ?_ ?_ ?_
  · intro w w' hf
    by_cases hfree : (w.procs i).lock = none
    · rw [if_pos hfree] at hf
      cases hf
      exact ⟨_, rfl, fun _ _ => .inl rfl, fun _ hs hch => ⟨fun hn => (by rw [hnap] at hn; cases hn), .inr ⟨hs, hch⟩⟩⟩
    · rw [if_neg hfree] at hf
      cases hf
  · intro c' d hd hN
    cases hd
    exact ⟨rfl, .inr (hc d hN)⟩
  · intro c' hn
    cases hn
    exact .inr hable

/-- Asleep until it is resumed. -/
theorem runs_slumber (c : χ) (hN : ∀ d, N d) :
    Runs W C i (slumber i c) ⟨False, some c, some c, fun _ _ => False, own⟩ N fun _ t' d => t' = .out own ∧ N d := by
  refine runs_seq (fun _ => ⟨False, some c, some c, fun _ _ => False, own⟩)
    (runs_self (N := N) (some c) (some c) rfl (.inr hN) ?_ (fun _ _ hd _ => ⟨hd, .inl hd⟩) fun _ hn => .inl hn)
    fun _ => ?_
  · intro w w' hf
    cases hf
    exact ⟨_, rfl, fun _ hd => .inr ⟨hd, rfl⟩, fun c' _ hch => ⟨fun hn => hn, .inl hch⟩⟩
  refine runs_seq (fun _ => ⟨False, none, some c, fun _ _ => False, own⟩)
    (runs_self (N := N) none (some c) rfl (.inr hN) ?_ (fun _ _ hd _ => by cases hd) fun _ hn => .inl hn)
    fun _ => ?_
  · intro w w' hf
    cases hf
    exact ⟨_, rfl, fun _ hd => (by cases hd), fun c' hs hch => ⟨fun hn => hn, .inr ⟨hs, hch⟩⟩⟩
  refine runs_seq (fun _ => .out own)
    (runs_self (N := N) none none rfl (.inr hN) ?_ (fun _ _ hd _ => by cases hd) fun _ hn => by cases hn)
    fun _ => ?_
  · intro w w' hf
    by_cases hfree : (w.procs i).lock = none ∧ (w.procs i).state = .runnable
    · rw [if_pos hfree] at hf
      cases hf
      exact ⟨_, rfl, fun _ hd => (by cases hd), fun c' hs _ => by cases hs⟩
    · rw [if_neg hfree] at hf
      cases hf
  refine runs_seq (fun _ => .out own)
    (runs_self (N := N) none none rfl (.inr hN) ?_ (fun _ _ hd _ => by cases hd) fun _ hn => by cases hn)
    fun _ => ?_
  · intro w w' hf
    cases hf
    exact ⟨_, rfl, fun _ hd => (by cases hd), fun c' _ hch => by cases hch⟩
  refine runs_self (N := N) none none rfl (.inr hN) ?_ (fun _ _ hd _ => by cases hd) fun _ hn => by cases hn
  intro w w' hf
  cases hf
  exact ⟨_, rfl, fun _ hd => (by cases hd), fun c' hs hch => ⟨fun hn => (by cases hn), .inr ⟨hs, hch⟩⟩⟩

/-- `sleep`, by a process with no debts that knows it may. -/
theorem runs_sleep (c : χ) (hc : ∀ d, N (W.fix d) → W.want c d) (hable : W.able c own) :
    Runs W C i (sleep i c) (.held own) N fun _ t' _ => t' = .held own := by
  have hall : ∀ d : π, (fun _ => True) d := fun _ => trivial
  rw [sleep_eq]
  refine runs_seq (fun _ => ⟨True, some c, some c, fun _ _ => False, own⟩)
    (runs_acquireProc c rfl (.inl trivial) rfl hc hable) fun _ => ?_
  refine runs_seq (fun _ => ⟨False, some c, some c, fun _ _ => False, own⟩) (F := fun _ _ => True)
    (runs_post (runs_release trivial fun _ _ _ _ _ _ _ _ h => absurd h id) fun _ _ _ ht => ⟨ht, trivial⟩) fun _ => ?_
  exact runs_seq (fun _ => .out own) (F := fun _ _ => True) (runs_slumber c hall) fun _ => runs_acquire hall

/-- On a channel that anyone may sleep on. -/
theorem runs_sleepElsewhere (c : χ) (hN : ∀ d, N d) (hc : ∀ d, W.want c d) (hable : W.able c own) :
    Runs W C i (sleepElsewhere i c) (.out own) N fun _ t' d => t' = .out own ∧ N d :=
  runs_seq (fun _ => ⟨False, some c, some c, fun _ _ => False, own⟩)
    (runs_acquireProc c rfl (.inr hN) rfl (fun d _ => hc d) hable) fun _ => runs_slumber c hN

section Waking
variable [DecidableEq χ]

omit [DecidableEq ι] [Inhabited L] in
theorem wake_sleeping {c c' : χ} {p : Proc ι χ} (hs : (p.wake c).state = .sleeping) (hc : (p.wake c).chan = some c') :
    p.state = .sleeping ∧ p.chan = some c' ∧ c' ≠ c := by
  unfold Proc.wake at hs hc
  by_cases h : p.state = .sleeping ∧ p.chan = some c
  · rw [if_pos h] at hs
    cases hs
  · rw [if_neg h] at hs hc
    refine ⟨hs, hc, fun he => h ⟨hs, ?_⟩⟩
    rw [← he]
    exact hc

/-- After `wakeup` only the processes that are not in its list are owed one. -/
theorem runs_wakeup (c : χ) (l : List ι) (owe : χ → ι → Prop) :
    Runs W C i (wakeup c l) (.owing own owe) N fun _ t' d =>
      t' = .owing own (fun c' j => owe c' j ∧ (c' = c → j ∉ l)) ∧ N d := by
  induction l generalizing owe with
  | nil =>
    have : (fun c' j => owe c' j ∧ (c' = c → j ∉ ([] : List ι))) = owe := by
      funext c' j
      exact propext ⟨fun h => h.1, fun h => ⟨h, fun _ => List.not_mem_nil⟩⟩
    rw [this]
    exact Rules.Judge.ret fun _ hd => ⟨rfl, hd⟩
  | cons j l ih =>
    apply runs_act
    intro w T w' hI hT hN _ hf
    by_cases hlock : (w.procs j).lock = none
    · rw [if_pos hlock] at hf
      cases hf
      have hnd : ∀ c', (T j).doze ≠ some c' := by
        intro c' hd
        have := hI.doze j c' hd
        rw [hlock] at this
        cases this
      -- whoever still sleeps slept before, and is not the process just woken
      have hold : ∀ k c', Asleep (w.setProc j (Proc.wake c))
          (Function.update T i (.owing own fun c' k => owe c' k ∧ (c' = c → k ≠ j)) k) k c' →
          Asleep w (T k) k c' ∧ (c' = c → k ≠ j) := by
        intro k c' hs
        have hs : Asleep (w.setProc j (Proc.wake c)) (T k) k c' := Asleep.old rfl hs
        by_cases hkj : k = j
        · subst hkj
          obtain ⟨hs, hc⟩ | hd := hs
          · rw [World.setProc_same] at hs hc
            obtain ⟨h1, h2, h3⟩ := wake_sleeping hs hc
            exact ⟨.inl ⟨h1, h2⟩, fun he => absurd he h3⟩
          · exact absurd hd (hnd c')
        · refine ⟨?_, fun _ => hkj⟩
          obtain hs | hd := hs
          · rw [World.setProc_ne _ _ _ _ hkj] at hs
            exact .inl hs
          · exact .inr hd
      refine ⟨.owing own fun c' k => owe c' k ∧ (c' = c → k ≠ j), N, ⟨fun k => ?_, fun k c' hd => ?_,
        fun k c' hs => ?_, hI.able_kept (.inl rfl), fun k c' hs => ?_, ?_⟩, fun hl => absurd trivial hl, hN, .inl trivial, ?_⟩
      · rw [locked_kept (by rw [hT]; rfl)]
        exact hI.lk k
      · have hl := hI.doze_old (i := i) (t := .owing own fun c' k => owe c' k ∧ (c' = c → k ≠ j)) rfl k c' hd
        by_cases hkj : k = j
        · rw [hkj, hlock] at hl
          cases hl
        · rw [World.setProc_ne _ _ _ _ hkj]
          exact hl
      · rw [nap_kept (by rw [hT]; rfl)]
        exact hI.nap k c' (hold k c' hs).1
      · obtain ⟨hs, hne⟩ := hold k c' hs
        obtain hw | ⟨m, hm, ho⟩ := hI.waiting k c' hs
        · exact .inl hw
        · have hmi := hI.locked_eq hm (k := i) (by rw [hT]; trivial)
          subst hmi
          rw [hT] at ho
          refine .inr ⟨m, ?_⟩
          rw [Function.update_self]
          exact ⟨trivial, ho, hne⟩
      · rw [own_kept (by rw [hT]; rfl)]
        exact hI.own
      · refine (ih _).post ?_
        intro _ t' w ht
        refine ⟨?_, ht.2⟩
        rw [ht.1]
        congr 1
        funext c' k
        apply propext
        rw [List.mem_cons, not_or]
        exact ⟨fun h => ⟨h.1.1, fun he => ⟨h.1.2 he, h.2 he⟩⟩, fun h => ⟨⟨h.1, fun he => (h.2 he).1⟩, fun he => (h.2 he).2⟩⟩
    · rw [if_neg hlock] at hf
      cases hf

/-- `wakeup` over the whole process table. -/
theorem runs_wakeup_all {proc : List ι} (hproc : ∀ j, j ∈ proc) (c : χ) (owe : χ → ι → Prop) :
    Runs W C i (wakeup c proc) (.owing own owe) N fun _ t' d =>
      t' = .owing own (fun c' j => owe c' j ∧ c' ≠ c) ∧ N d := by
  refine runs_post (runs_wakeup c proc owe) ?_
  intro _ t' w ht
  refine ⟨?_, ht.2⟩
  rw [ht.1]
  congr 1
  funext c' j
  exact propext ⟨fun h => ⟨h.1, fun he => h.2 he (hproc j)⟩, fun h => ⟨h.1, fun he => absurd he h.2⟩⟩

end Waking

omit [DecidableEq ι] [Inhabited L] in
theorem kill_sleeping {p : Proc ι χ} : p.kill.state ≠ .sleeping := by
  show (if p.state = .sleeping then _ else p.state) ≠ ProcState.sleeping
  by_cases h : p.state = .sleeping
  · rw [if_pos h]
    exact fun h => nomatch h
  · rw [if_neg h]
    exact h

omit [Inhabited L] in
/-- A section on a process whose `p->lock` is free, and which does not fall asleep in it. -/
theorem Watched.setProc {w : World ι χ δ} {T : ι → Duty ι χ τ} (h : Watched W w T) {j : ι} {f : Proc ι χ → Proc ι χ}
    (hfree : (w.procs j).lock = none) (hf : ∀ c, (f (w.procs j)).state = .sleeping → (f (w.procs j)).chan = some c →
      (w.procs j).state = .sleeping ∧ (w.procs j).chan = some c) : Watched W (w.setProc j f) T := by
  apply h.procs
  · rfl
  · rfl
  · intro m hm
    by_cases hmj : m = j
    · subst hmj
      rw [hfree] at hm
      cases hm
    · rw [World.setProc_ne _ _ _ _ hmj]
      exact hm
  · intro m c hs hc
    by_cases hmj : m = j
    · subst hmj
      rw [World.setProc_same] at hs hc
      exact hf c hs hc
    · rw [World.setProc_ne _ _ _ _ hmj] at hs hc
      exact ⟨hs, hc⟩

/-- Waking somebody never hurts. -/
theorem runs_wakeup_any [DecidableEq χ] {t : Duty ι χ τ} (hN : t.locked ∨ ∀ d, N d) (c : χ) (l : List ι) :
    Runs W C i (wakeup c l) t N fun _ t' d => t' = t ∧ N d := by
  induction l with
  | nil => exact Rules.Judge.ret fun _ hd => ⟨rfl, hd⟩
  | cons j l ih =>
    apply runs_act
    intro w T w' hI hT hNw _ hf
    by_cases hfree : (w.procs j).lock = none
    · rw [if_pos hfree] at hf
      cases hf
      refine ⟨t, N, ?_, fun _ => rfl, hNw, hN, ih⟩
      rw [← hT, Function.update_eq_self]
      refine hI.setProc hfree fun c' hs hc => ?_
      obtain ⟨hs, hc, -⟩ := wake_sleeping hs hc
      exact ⟨hs, hc⟩
    · rw [if_neg hfree] at hf
      cases hf

theorem runs_kill {t : Duty ι χ τ} (hN : t.locked ∨ ∀ d, N d) (pid : Int) (l : List ι) :
    Runs W C i (kill pid l) t N fun _ t' d => t' = t ∧ N d := by
  induction l with
  | nil => exact Rules.Judge.ret fun _ hd => ⟨rfl, hd⟩
  | cons j l ih =>
    apply runs_act
    intro w T w' hI hT hNw _ hf
    by_cases hfree : (w.procs j).lock = none
    · rw [if_pos hfree] at hf
      have hk : Runs W C i (if (w.procs j).pid = pid then return 0 else kill pid l) t N
          fun _ t' d => t' = t ∧ N d := by
        by_cases hp : (w.procs j).pid = pid
        · rw [if_pos hp]
          exact Rules.Judge.ret fun _ hd => ⟨rfl, hd⟩
        · rw [if_neg hp]
          exact ih
      have hself : Function.update T i t = T := by
        rw [← hT, Function.update_eq_self]
      by_cases hp : (w.procs j).pid = pid
      · rw [if_pos hp] at hf
        cases hf
        refine ⟨t, N, ?_, fun _ => rfl, hNw, hN, hk⟩
        rw [hself]
        exact hI.setProc hfree fun c hs _ => absurd hs kill_sleeping
      · rw [if_neg hp] at hf
        cases hf
        refine ⟨t, N, ?_, fun _ => rfl, hNw, hN, hk⟩
        rw [hself]
        exact hI
    · rw [if_neg hfree] at hf
      cases hf

end Sleeping
end Rules
end Farron
