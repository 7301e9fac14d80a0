import Farron.File.Leaks
import Farron.File.Offsets
import Farron.Resumption.Rely

/-! Listing a directory by many processes that share its file.

A call scans under the dirent's lock, but moves `f->off` behind the record that it has found only
after it has given the lock up (`dirnextCopy`). Where no other call scans in between, each record
goes through the hands of one call, and what the calls return and leave at their addresses are these
records (`readdir_lists`). Calls that come one after the other are such a run (`alone_sysReaddir`).

There are two invariants of the same code. `Listed` is about the directory: what each call has found.
`Holds` is about the processes: what each has been told. -/
namespace Farron.Stat
open Resumption Strings
open Files (FileType)
open Memory (u64)

variable {L : Layout}

/-! ### The processes -/

/-- A call of `sys_readdir`. -/
structure Readdir where
  frame : Frame
  fd : Int
  addr : Nat

/-- The record fits into a memory of this size. -/
def Readdir.Inside (c : Readdir) (sz : Nat) : Prop := ¬ (u64 (c.addr + statSz) > sz ∨ c.addr ≥ sz)

instance (c : Readdir) (sz : Nat) : Decidable (c.Inside sz) := inferInstanceAs (Decidable (¬ _))

/-- What a call came to: what it returned, and the `struct stat` at its address then. -/
structure Answer where
  call : Readdir
  result : Int
  stat : List Byte

/-- A process: the size of its memory, and what its calls came to, in order. -/
structure Reader where
  sz : Nat
  answers : List Answer

/-- The bytes of a `struct stat`. -/
def statOf (st : Bytes) : List Byte := (List.range statSz).map st

def System.statAt (s : System) (pid addr : Nat) : List Byte := statOf fun o => s.user pid (addr + o)

/-- The process looks at its own memory. -/
def statAt (pid addr : Nat) : Sys (List Byte) := .act .plain some fun s => .ret (s.statAt pid addr)

/-- Processes that call `sys_readdir`, with addresses in their memory, and look at what it has left there. -/
def readdirs (fat : Fat) : Client Mark Stop System Nat Reader Readdir where
  enabled u c := c.Inside u.sz
  body pid u c := do
    let r ← sysReaddir fat pid c.frame c.fd c.addr
    let stat ← statAt pid c.addr
    return { u with answers := u.answers ++ [⟨c, r, stat⟩] }
  pass _ _ _ _ := False

def start (s : System) : Config Mark Stop System Nat Reader := ⟨s, fun pid => .ret ⟨s.sz pid, []⟩⟩

/-- The file is the directory `ep`, open for reading and at its start, and no call has begun. -/
structure Opened (fat : Fat) (s : System) (ep : Ptr) (l : List Nat) (L : Layout) : Prop where
  readable : s.file.readable = true
  entry : s.file.ep = some ep
  off : s.file.off = 0
  dir : DirAt fat s.fs ep l
  on : L.On fat s.fs.disk l
  ref : 1 ≤ (s.fs.dirents ep).ref
  lock : (s.fs.dirents ep).lock = none
  phase : ∀ pid, s.phase pid = .idle
  returned : s.returned = []
  ended : s.ended = false

/-- A scan begins with a `de` that is not marked valid and when no other call is still to move the
offset, and a call returns 0 when no other call has a record in its hands. -/
def Careful : Mark → System → Prop
  | .scan valid, s => valid = 0 ∧ ∀ pid, s.phase pid ≠ .found
  | .ended, s => ∀ pid, s.phase pid = .idle
  | _, _ => True

/-- The call has left the record at its address. -/
def Answer.Shows (r : Nat × Next) (a : Answer) : Prop :=
  a.stat = statOf (estat (Next.fill r.2 a.call.frame.de) a.call.frame.dev a.call.frame.st)

/-- The calls that have returned a record. -/
def Reader.found (u : Reader) : List Answer := u.answers.filter fun a => a.result = 1

/-- No call has panicked. Different records of the directory have been returned, each to a process: one after the other
they are what its calls that returned 1 have left at their addresses. A call returns 0 only when all records have
been, and -1 only if its descriptor is not open. -/
def ListsOnce (L : Layout) (s : System) (g : Config Mark Stop System Nat Reader) : Prop :=
  (∀ pid why, g.thread pid ≠ .stop why) ∧
  ∃ ret : List (Nat × (Nat × Next)), (ret.map Prod.snd).Nodup ∧ ret.map Prod.snd ⊆ records L ∧
    ∀ pid u, g.thread pid = .ret u →
      List.Forall₂ Answer.Shows ((ret.filter fun x => x.1 = pid).map Prod.snd) u.found ∧
      ∀ a ∈ u.answers, a.result = 1 ∨ (a.result = 0 ∧ records L ⊆ ret.map Prod.snd) ∨
        (a.result = -1 ∧ s.isOpen pid a.call.fd = false)

/-! ### How far a call has come -/

/-- What a call holds, and what it knows: the file system while it has the lock, the number of
reports behind the offset from the scan until it has moved it, the record from there until it is
copied out. -/
inductive Stage
  | idle (sz : Nat)
  | held (fs : State)
  | scan (fs : State) (p : Nat)
  | mark (fs : State) (p : Nat)
  | found (p : Nat)
  | passed (r : Nat × Next)
  | moved (r : Nat × Next)
  | last (fs : State)
  | ended

namespace Stage

def size : Stage → Option Nat
  | idle sz => some sz
  | _ => none

def own : Stage → Option State
  | held fs => some fs
  | scan fs _ => some fs
  | mark fs _ => some fs
  | last fs => some fs
  | _ => none

def at? : Stage → Option Nat
  | scan _ p => some p
  | mark _ p => some p
  | found p => some p
  | _ => none

def hand : Stage → Option (Nat × Next)
  | passed r => some r
  | moved r => some r
  | _ => none

def behind : Stage → Bool
  | last _ => true
  | ended => true
  | _ => false

def phase : Stage → Phase
  | mark _ _ => .found
  | found _ => .found
  | passed _ => .found
  | moved _ => .moved
  | _ => .idle

/-- A call that knows the offset has the lock or is about to move the offset. -/
theorem own_or_found {t : Stage} (h : t.at? ≠ none) : t.own ≠ none ∨ t.phase = .found := by
  cases t with
  | scan fs p => exact .inl (by simp [own])
  | mark fs p => exact .inr rfl
  | found p => exact .inr rfl
  | idle sz => exact absurd rfl h
  | held fs => exact absurd rfl h
  | passed r => exact absurd rfl h
  | moved r => exact absurd rfl h
  | last fs => exact absurd rfl h
  | ended => exact absurd rfl h

/-- Nothing is in the hands of a call that has nothing left to do. -/
theorem hand_eq_none {t : Stage} (h : t.phase = .idle) : t.hand = none := by
  cases t with
  | passed r => cases h
  | moved r => cases h
  | idle sz => rfl
  | held fs => rfl
  | scan fs p => rfl
  | mark fs p => rfl
  | found p => rfl
  | last fs => rfl
  | ended => rfl

end Stage

/-! ### The sections -/

section Sections
variable (fat : Fat) (ep : Ptr) (l : List Nat) (L : Layout) (s₀ : System)

/-- `p` reports are behind the offset, and `ret` are the records that have been returned. -/
structure Scanned (s : System) (T : Nat → Stage) (p : Nat) (ret : List (Nat × Next)) : Prop where
  locks : Locks fat ep l s₀.fs.disk s.fs fun i => (T i).own
  file : s.file.readable = true ∧ s.file.ep = some ep
  turn : Turn L s.file.off p (fun i => (T i).at?) fun i => (T i).behind
  given : Given L p ret (fun i => (T i).hand) s.returned s.ended
  sz : s.sz = s₀.sz
  ofile : s.ofile = s₀.ofile
  sizes : ∀ i n, (T i).size = some n → n = s₀.sz i
  phase : ∀ i, s.phase i = (T i).phase

def Listed (s : System) (T : Nat → Stage) : Prop := ∃ p ret, Scanned fat ep l L s₀ s T p ret

variable {fat ep l L s₀} {s s' : System} {T : Nat → Stage} {p p' : Nat} {ret ret' : List (Nat × Next)} {i : Nat}
  {t t' : Stage}

/-- What a section does not change of a call's stage. -/
theorem same {β : Type} (f : Stage → β) (ht : T i = t) (t' : Stage) (h : f t' = f t) :
    Function.update (fun j => f (T j)) i (f t') = fun j => f (T j) := by
  rw [h, ← ht]
  exact Function.update_eq_self i fun j => f (T j)

namespace Scanned
variable (h : Scanned fat ep l L s₀ s T p ret) (ht : T i = t)
include h

/-- A section of call `i`, from what it does to each part. -/
theorem step (hlocks : Locks fat ep l s₀.fs.disk s'.fs (Function.update (fun j => (T j).own) i t'.own))
    (hturn : Turn L s'.file.off p' (Function.update (fun j => (T j).at?) i t'.at?)
      (Function.update (fun j => (T j).behind) i t'.behind))
    (hgiven : Given L p' ret' (Function.update (fun j => (T j).hand) i t'.hand) s'.returned s'.ended)
    (hphase : s'.phase = Function.update s.phase i t'.phase) (hfile : { s'.file with off := s.file.off } = s.file)
    (hsz : s'.sz = s.sz ∧ s'.ofile = s.ofile) (hsize : ∀ n, t'.size = some n → n = s₀.sz i) :
    Listed fat ep l L s₀ s' (Function.update T i t') := by
  have hpart : ∀ {β : Type} (f : Stage → β),
      (fun j => f (Function.update T i t' j)) = Function.update (fun j => f (T j)) i (f t') :=
    fun f => Function.comp_update f T i t'
  refine ⟨p', ret', ?_, ?_, ?_, ?_, hsz.1.trans h.sz, hsz.2.trans h.ofile, fun j n hj => ?_, fun j => ?_⟩
  · rw [hpart]
    exact hlocks
  · have hr := h.file
    rw [← hfile] at hr
    exact hr
  · rw [hpart, hpart]
    exact hturn
  · rw [hpart]
    exact hgiven
  · by_cases hji : j = i
    · subst hji
      rw [Function.update_self] at hj
      exact hsize n hj
    · rw [Function.update_of_ne hji] at hj
      exact h.sizes j n hj
  · rw [hphase]
    by_cases hji : j = i
    · subst hji
      rw [Function.update_self, Function.update_self]
    · rw [Function.update_of_ne hji, Function.update_of_ne hji]
      exact h.phase j

include ht

theorem keep_phase (hp : t'.phase = t.phase) : s.phase = Function.update s.phase i t'.phase := by
  have hi : t'.phase = s.phase i := by rw [hp, h.phase i, ht]
  rw [hi, Function.update_eq_self]

theorem keep_locks (ho : t'.own = t.own) :
    Locks fat ep l s₀.fs.disk s.fs (Function.update (fun j => (T j).own) i t'.own) := by
  rw [same Stage.own ht t' ho]
  exact h.locks

theorem keep_turn (ha : t'.at? = t.at?) (hb : t'.behind = t.behind) :
    Turn L s.file.off p (Function.update (fun j => (T j).at?) i t'.at?)
      (Function.update (fun j => (T j).behind) i t'.behind) := by
  rw [same Stage.at? ht t' ha, same Stage.behind ht t' hb]
  exact h.turn

theorem keep_given (hh : t'.hand = t.hand) :
    Given L p ret (Function.update (fun j => (T j).hand) i t'.hand) s.returned s.ended := by
  rw [same Stage.hand ht t' hh]
  exact h.given

/-- Where the offset is, for the call that knows it. -/
theorem here {q : Nat} (hq : t.at? = some q) : q = p ∧ s.file.off = recordSz * place L q := by
  have hp : q = p := h.turn.here i q (by rw [ht, hq])
  exact ⟨hp, by rw [hp]; exact h.turn.off⟩

end Scanned

/-- Call `i` runs the program from one stage to another. -/
abbrev Goes (fat : Fat) (ep : Ptr) (l : List Nat) (L : Layout) (s₀ : System) {α : Type} (i : Nat) (p : Sys α) (t : Stage)
    (Q : α → Stage → Prop) : Prop :=
  Triple (Listed fat ep l L s₀) Careful (fun _ _ => True) (fun _ => False) i p t Q

/-- A section that only looks. -/
theorem goes_look {α : Type} {m : Mark} {k : System → Sys α} {Q : α → Stage → Prop}
    (hk : ∀ s T p ret, Scanned fat ep l L s₀ s T p ret → T i = t → Careful m s → Goes fat ep l L s₀ i (k s) t Q) :
    Goes fat ep l L s₀ i (.act m some k) t Q := by
  intro s T s' hI ht hC hs
  cases hs
  obtain ⟨p, ret, h⟩ := hI
  refine ⟨trivial, t, ?_, hk s T p ret h ht hC⟩
  rw [← ht, Function.update_eq_self]
  exact ⟨p, ret, h⟩

theorem goes_file : Goes fat ep l L s₀ i file t fun f t' => t' = t ∧ f.readable = true ∧ f.ep = some ep ∧
    ∀ q, t.at? = some q → f.off = recordSz * place L q :=
  goes_look fun _ _ _ _ h ht _ => ⟨rfl, h.file.1, h.file.2, fun _ hq => (h.here ht hq).2⟩

/-- What a call reads of the dirent at any time. -/
theorem goes_dirent : Goes fat ep l L s₀ i (onFs (dirent ep)) t fun d t' => t' = t ∧ d.attr &&& attrDirectory ≠ 0 ∧ 1 ≤ d.ref ∧
    ∀ fs, t.own = some fs → d.lock = some i :=
  goes_look fun _ _ _ _ h ht _ =>
    ⟨rfl, h.locks.attr, h.locks.ref, fun fs hfs => (h.locks.held i fs (by rw [ht, hfs])).2⟩

/-- The directory can be scanned. -/
def Ready (fat : Fat) (ep : Ptr) (l : List Nat) (s₀ : System) (fs : State) : Prop :=
  DirAt fat fs ep l ∧ fs.disk = s₀.fs.disk

theorem goes_elock {n : Nat} : Goes fat ep l L s₀ i (onFs (elock i (some ep))) (.idle n) fun _ t' =>
    ∃ fs, t' = .held fs ∧ Ready fat ep l s₀ fs := by
  refine goes_look fun s T p ret h ht _ => ?_
  have href : ¬ (s.fs.dirents ep).ref < 1 := not_lt.mpr h.locks.ref
  show Goes fat ep l L s₀ i (onFs (if (s.fs.dirents ep).ref < 1 then panic "elock" else acquiresleep i ep)) _ _
  rw [if_neg href]
  intro s T s' hI ht _ hs
  obtain ⟨p, ret, h⟩ := hI
  replace hs : ((if (s.fs.dirents ep).lock = none then some (s.fs.setDirent ep fun d => { d with lock := some i })
    else none).map s.setFs) = some s' := hs
  by_cases hlock : (s.fs.dirents ep).lock = none
  · obtain ⟨fs, hfs⟩ : ∃ fs, s.fs.setDirent ep (fun d => { d with lock := some i }) = fs := ⟨_, rfl⟩
    rw [if_pos hlock, hfs, Option.map_some] at hs
    cases hs
    have hacq := h.locks.acquire hlock i
    rw [hfs] at hacq
    refine ⟨trivial, .held fs, ?_, fs, rfl, ?_, hacq.disk⟩
    · exact h.step hacq (h.keep_turn ht rfl rfl) (h.keep_given ht rfl) (h.keep_phase ht rfl) rfl ⟨rfl, rfl⟩
        fun n hn => by cases hn
    · rw [← hfs]
      exact Locks.dirAt_lock (h.locks.free hlock) _
  · rw [if_neg hlock] at hs
    cases hs

/-- The call gives the lock up. -/
theorem goes_eunlock {fs : State} (ho : t.own = some fs) (hready : Ready fat ep l s₀ fs) (hn : t'.own = none)
    (ha : t'.at? = t.at?) (hb : t'.behind = t.behind) (hh : t'.hand = t.hand) (hp : t'.phase = t.phase) (hsize : t'.size = none) :
    Goes fat ep l L s₀ i (onFs (eunlock i (some ep))) t fun _ u => u = t' := by
  refine goes_look fun s T p ret h ht _ => ?_
  have hd : ¬ ((s.fs.dirents ep).lock ≠ some i ∨ (s.fs.dirents ep).ref < 1) := by
    have := h.locks.ref
    rw [(h.locks.held i fs (by rw [ht, ho])).2]
    simpa using this
  show Goes fat ep l L s₀ i (onFs (if (s.fs.dirents ep).lock ≠ some i ∨ (s.fs.dirents ep).ref < 1 then panic "eunlock"
    else releasesleep ep)) _ _
  rw [if_neg hd]
  intro s T s' hI ht _ hs
  cases hs
  obtain ⟨p, ret, h⟩ := hI
  refine ⟨trivial, t', h.step ?_ (h.keep_turn ht ha hb) (h.keep_given ht hh) (h.keep_phase ht hp) rfl ⟨rfl, rfl⟩ fun n hs => ?_, rfl⟩
  · rw [hn]
    exact h.locks.release (by rw [ht, ho]) hready.1
  · rw [hsize] at hs
    cases hs

section Scan
variable (w : fat.Wf) (hon : L.On fat s₀.fs.disk l) (hends : L.Ends fat s₀.fs.disk l)
include w hon hends

theorem goes_enext {fs : State} (hready : Ready fat ep l s₀ fs) (p count : Nat) :
    Goes fat ep l L s₀ i (onFs (enext fat ep 0 (recordSz * place L p) count)) (.scan fs p) fun r t' =>
      r = reportAt L p count ∧ ∃ fs', t' = .scan fs' p ∧ Ready fat ep l s₀ fs' := by
  obtain ⟨hdir, hdisk⟩ := hready
  rw [← hdisk] at hon hends
  obtain ⟨c, j, hj, hrun⟩ := run_enext_place w hon hends hdir p count
  have hget : ∀ s T x, Listed fat ep l L s₀ s T → T i = .scan x p → s.fs = x := by
    intro s T x hI ht
    obtain ⟨q, ret, h⟩ := hI
    exact (h.locks.held i x (by rw [ht]; rfl)).1
  have hset : ∀ s T x x', (∃ c k, x' = x.setCursor ep c k) → Listed fat ep l L s₀ s T → T i = .scan x p →
      Listed fat ep l L s₀ (s.setFs x') (Function.update T i (.scan x' p)) := by
    rintro s T x x' ⟨c', k', rfl⟩ hI ht
    obtain ⟨q, ret, h⟩ := hI
    exact h.step (h.locks.move (by rw [ht]; rfl) c' k') (h.keep_turn ht rfl rfl) (h.keep_given ht rfl)
      (h.keep_phase ht rfl) rfl ⟨rfl, rfl⟩ fun n hn => by cases hn
  have howned : Goes fat ep l L s₀ i (onFs (enext fat ep 0 (recordSz * place L p) count)) (.scan fs p) fun r t' =>
      r = reportAt L p count ∧ t' = .scan (fs.setCursor ep c j) p :=
    Triple.owned (fun _ _ => trivial) hget hset (reads_enext _ _ _) hrun
  refine howned.mono fun r t' hr => ⟨hr.1, _, hr.2, hdir.setCursor hj, hdisk⟩

end Scan

/-- The call that knows the offset moves it. -/
theorem goes_moveOff (hends : L.Ends fat s₀.fs.disk l) {q : Nat} {r : Nat × Next} (hq : t.at? = some q)
    (hr : (reports 0 L.items)[q]? = some r)
    (hset : ∀ s T ret, Scanned fat ep l L s₀ s T q ret → T i = t →
      Listed fat ep l L s₀ { s with file := { s.file with off := recordSz * place L (q + 1) } } (Function.update T i t')) :
    Goes fat ep l L s₀ i (moveOff r.2.count) t fun _ u => u = t' := by
  refine goes_file.bind fun f u hf => ?_
  obtain ⟨rfl, -, -, hoff⟩ := hf
  rw [hoff q hq, u32_place hends q hr]
  intro s T s' hI ht _ hs
  cases hs
  obtain ⟨p, ret, h⟩ := hI
  obtain ⟨rfl, -⟩ := h.here ht hq
  exact ⟨trivial, t', hset s T ret h ht, rfl⟩

theorem goes_moveGap (hends : L.Ends fat s₀.fs.disk l) {q : Nat} {r : Nat × Next} {fs : State}
    (hr : (reports 0 L.items)[q]? = some r) (htype : r.2.type = 0) :
    Goes fat ep l L s₀ i (moveOff r.2.count) (.scan fs q) fun _ u => u = .scan fs (q + 1) := by
  refine goes_moveOff hends rfl hr fun s T ret h ht => ?_
  have hturn := h.turn.next (i := i) (by rw [ht]; rfl) hr rfl (x := some (q + 1)) fun _ hx => (Option.some.inj hx).symm
  have hgiven := h.given.gap hr htype
  rw [← same Stage.behind ht (.scan fs (q + 1)) rfl] at hturn
  rw [← same Stage.hand ht (.scan fs (q + 1)) rfl] at hgiven
  exact h.step (h.keep_locks ht rfl) hturn hgiven (h.keep_phase ht rfl) rfl ⟨rfl, rfl⟩ fun n hn => by cases hn

theorem goes_moveRecord (hends : L.Ends fat s₀.fs.disk l) {q : Nat} {r : Nat × Next}
    (hr : (reports 0 L.items)[q]? = some r) (htype : r.2.type ≠ 0) :
    Goes fat ep l L s₀ i (moveOff r.2.count) (.found q) fun _ u => u = .passed r := by
  refine goes_moveOff hends rfl hr fun s T ret h ht => ?_
  have hturn := h.turn.next (i := i) (by rw [ht]; rfl) hr rfl (x := none) fun _ hx => by cases hx
  have hgiven := h.given.take (i := i) hr htype (by rw [ht]; rfl)
  rw [← same Stage.behind ht (.passed r) rfl] at hturn
  exact h.step (h.keep_locks ht rfl) hturn hgiven (h.keep_phase ht rfl) rfl ⟨rfl, rfl⟩ fun n hn => by cases hn

/-- The call notes what it is about to do. -/
theorem goes_setPhase (t t' : Stage) (ho : t'.own = t.own) (ha : t'.at? = t.at?) (hb : t'.behind = t.behind) (hh : t'.hand = t.hand)
    (hsize : t'.size = none) : Goes fat ep l L s₀ i (setPhase i t'.phase) t fun _ u => u = t' := by
  intro s T s' hI ht _ hs
  cases hs
  obtain ⟨p, ret, h⟩ := hI
  refine ⟨trivial, t', h.step (h.keep_locks ht ho) (h.keep_turn ht ha hb) (h.keep_given ht hh) rfl rfl ⟨rfl, rfl⟩ fun n hn => ?_, rfl⟩
  rw [hsize] at hn
  cases hn

/-! ### The functions -/

/-- What the loop of `dirnext` ends with: a record, or the end. -/
def Found (L : Layout) (q : Nat) (r : Next) : Prop :=
  (∃ k, (reports 0 L.items)[q]? = some (k, r) ∧ r.type ≠ 0 ∧ r.type ≠ -1) ∨ (reports 0 L.items)[q]? = none ∧ r.type = -1

section Scan
variable (w : fat.Wf) (hon : L.On fat s₀.fs.disk l) (hends : L.Ends fat s₀.fs.disk l)
include w hon hends

/-- What the loop of `dirnext` does once it knows the offset, where `n` more rounds go well behind a gap. -/
theorem goes_round {n q : Nat}
    (hnext : ∀ fs count, Ready fat ep l s₀ fs → q < (reports 0 L.items).length →
      Goes fat ep l L s₀ i (dirnextLoop fat ep 0 n count) (.scan fs (q + 1)) fun r t' =>
        ∃ fs' p, t' = .scan fs' p ∧ Ready fat ep l s₀ fs' ∧ Found L p r)
    {fs : State} (hready : Ready fat ep l s₀ fs) (count : Nat) :
    Goes fat ep l L s₀ i (onFs (enext fat ep 0 (recordSz * place L q) count) >>= fun r =>
      if r.type = 0 then do
        moveOff r.count
        dirnextLoop fat ep 0 n r.count
      else return r) (.scan fs q) fun r t' => ∃ fs' p, t' = .scan fs' p ∧ Ready fat ep l s₀ fs' ∧ Found L p r := by
  refine (goes_enext w hon hends hready q count).bind fun r t' hr => ?_
  obtain ⟨rfl, fs', rfl, hready'⟩ := hr
  unfold reportAt
  cases hat : (reports 0 L.items)[q]? with
  | none =>
    rw [if_neg (by show ¬ (-1 : Int) = 0; decide)]
    exact ⟨fs', q, rfl, hready', .inr ⟨hat, rfl⟩⟩
  | some x =>
    by_cases htype : x.2.type = 0
    · rw [if_pos htype]
      refine (goes_moveGap hends hat htype).bind fun _ t' ht' => ?_
      subst ht'
      exact hnext fs' _ hready' (List.getElem?_eq_some_iff.mp hat).1
    · rw [if_neg htype]
      exact ⟨fs', q, rfl, hready', .inl ⟨x.1, hat, htype, reports_type (List.mem_of_getElem? hat)⟩⟩

theorem goes_loop {valid : Int} (n : Nat) {q : Nat} (hq : q ≤ (reports 0 L.items).length) (hn : (reports 0 L.items).length < q + n)
    {fs : State} (hready : Ready fat ep l s₀ fs) (count : Nat) :
    Goes fat ep l L s₀ i (dirnextLoop fat ep valid n count) (.scan fs q) fun r t' =>
      ∃ fs' p, t' = .scan fs' p ∧ Ready fat ep l s₀ fs' ∧ Found L p r := by
  induction n generalizing q fs count with
  | zero => exact absurd hn (by omega)
  | succ n ih =>
    refine goes_look fun s T p ret h ht hC => ?_
    obtain ⟨rfl, -⟩ := hC
    rw [(h.here ht rfl).2]
    exact goes_round w hon hends (fun fs' c hready' hlt => ih hlt (by omega) hready' c) hready count

/-- The first round looks at the offset. -/
theorem goes_loop_first {valid : Int} {n : Nat} (hn : (reports 0 L.items).length < n) {fs : State} (hready : Ready fat ep l s₀ fs)
    (count : Nat) : Goes fat ep l L s₀ i (dirnextLoop fat ep valid n count) (.held fs) fun r t' =>
      ∃ fs' p, t' = .scan fs' p ∧ Ready fat ep l s₀ fs' ∧ Found L p r := by
  obtain ⟨n, rfl⟩ : ∃ m, n = m + 1 := ⟨n - 1, by omega⟩
  intro s T s' hI ht hC hs
  cases hs
  obtain ⟨q, ret, h⟩ := hI
  obtain ⟨rfl, hfound⟩ := hC
  -- no other call has the lock, and none is about to move the offset
  have hother : ∀ j, j ≠ i → (T j).at? = none := by
    intro j hj
    by_contra hat
    rcases Stage.own_or_found hat with ho | hp
    · obtain ⟨x, hx⟩ := Option.ne_none_iff_exists'.mp ho
      exact hj (h.locks.own_eq (by rw [ht]; rfl) hx)
    · exact hfound j ((h.phase j).trans hp)
  have hturn := h.turn.look hother
  rw [← same Stage.behind ht (.scan fs q) rfl] at hturn
  refine ⟨trivial, .scan fs q, h.step (h.keep_locks ht rfl) hturn (h.keep_given ht rfl) (h.keep_phase ht rfl) rfl ⟨rfl, rfl⟩
    fun n hn => (by cases hn), ?_⟩
  show Goes fat ep l L s₀ i (onFs (enext fat ep 0 s.file.off count) >>= _) _ _
  rw [h.turn.off]
  exact goes_round w hon hends (fun fs' c hready' hlt => goes_loop w hon hends n hlt (by omega) hready' c) hready count

/-- The part under the lock: the call that has found a record is the one that knows the offset. -/
theorem goes_dirnextFind {valid : Int} {n : Nat} : Goes fat ep l L s₀ i (dirnextFind fat i ep valid) (.idle n) fun r t' =>
    (∃ q k, (reports 0 L.items)[q]? = some (k, r) ∧ r.type ≠ 0 ∧ r.type ≠ -1 ∧ t' = .found q) ∨ r.type = -1 ∧ t' = .ended := by
  have hfew : (reports 0 L.items).length < maxSlots + 1 := by
    have hle := length_reports_le 0 L.items
    have hlt := hends.1
    unfold recordSz at hlt
    unfold maxSlots
    omega
  refine goes_elock.bind fun _ t' ht' => ?_
  obtain ⟨fs, rfl, hready⟩ := ht'
  refine (goes_loop_first w hon hends hfew hready 0).bind fun r t' ht' => ?_
  obtain ⟨fs', q, rfl, hready', ⟨k, hat, htype, hnot⟩ | ⟨hend, htype⟩⟩ := ht'
  · rw [if_neg hnot]
    have hmark : Goes fat ep l L s₀ i (setPhase i .found) (.scan fs' q) fun _ u => u = .mark fs' q :=
      goes_setPhase _ (.mark fs' q) rfl rfl rfl rfl rfl
    have hunlock : Goes fat ep l L s₀ i (onFs (eunlock i (some ep))) (.mark fs' q) fun _ u => u = .found q :=
      goes_eunlock rfl hready' rfl rfl rfl rfl rfl rfl
    refine hmark.bind fun _ t' ht' => ?_
    subst ht'
    refine hunlock.bind fun _ t' ht' => ?_
    subst ht'
    exact .inl ⟨q, k, hat, htype, hnot, rfl⟩
  · rw [if_pos htype]
    have hlast : Goes fat ep l L s₀ i (setPhase i .idle) (.scan fs' q) fun _ u => u = .last fs' := by
      intro s T s' hI ht _ hs
      cases hs
      obtain ⟨p, ret, h⟩ := hI
      obtain ⟨rfl, -⟩ := h.here ht rfl
      exact ⟨trivial, .last fs', h.step (h.keep_locks ht rfl) (h.turn.last hend) (h.keep_given ht rfl) rfl rfl ⟨rfl, rfl⟩
        fun n hn => (by cases hn), rfl⟩
    have hunlock : Goes fat ep l L s₀ i (onFs (eunlock i (some ep))) (.last fs') fun _ u => u = .ended :=
      goes_eunlock rfl hready' rfl rfl rfl rfl rfl rfl
    refine hlast.bind fun _ t' ht' => ?_
    subst ht'
    refine hunlock.bind fun _ t' ht' => ?_
    subst ht'
    exact .inr ⟨htype, rfl⟩

end Scan

/-- What it does with a record that it has found. -/
theorem goes_dirnextCopy (hends : L.Ends fat s₀.fs.disk l) {q k addr : Nat} {r : Next} {frame : Frame} {fd : Int}
    (hr : (reports 0 L.items)[q]? = some (k, r)) (htype : r.type ≠ 0) (hin : Readdir.Inside ⟨frame, fd, addr⟩ (s₀.sz i)) :
    Goes fat ep l L s₀ i (dirnextCopy i frame addr r) (.found q) fun x t' => t' = .idle (s₀.sz i) ∧ x ≠ -1 := by
  have hmoved : Goes fat ep l L s₀ i (setPhase i .moved) (.passed (k, r)) fun _ u => u = .moved (k, r) :=
    goes_setPhase _ (.moved (k, r)) rfl rfl rfl rfl rfl
  have hcopy : ∀ st, Goes fat ep l L s₀ i (copyout2 i addr st statSz) (.moved (k, r)) fun x u =>
      x = 0 ∧ u = .moved (k, r) := by
    intro st s T s' hI ht _ hs
    cases hs
    obtain ⟨p, ret, h⟩ := hI
    have hout : ¬ s.outside i addr statSz := by
      unfold System.outside
      rw [h.sz]
      exact hin
    rw [if_neg hout]
    refine ⟨trivial, _, h.step (h.keep_locks ht rfl) (h.keep_turn ht rfl rfl) (h.keep_given ht rfl) (h.keep_phase ht rfl) rfl ⟨rfl, rfl⟩
      fun n hn => (by cases hn), if_neg hout, rfl⟩
  refine (goes_moveRecord hends hr htype).bind fun _ t' ht' => ?_
  subst ht'
  refine hmoved.bind fun _ t' ht' => ?_
  subst ht'
  refine (hcopy _).bind fun x t' hx => ?_
  obtain ⟨rfl, rfl⟩ := hx
  rw [if_neg (by decide)]
  intro s T s' hI ht _ hs
  cases hs
  obtain ⟨p, ret, h⟩ := hI
  have hgiven := h.given.give (i := i) (r := (k, r)) (by rw [ht]; rfl) (x := ⟨i, frame, estat (Next.fill r frame.de) frame.dev frame.st⟩) rfl
  exact ⟨trivial, .idle (s₀.sz i), h.step (h.keep_locks ht rfl) (h.keep_turn ht rfl rfl) hgiven rfl rfl ⟨rfl, rfl⟩
    fun n hn => (Option.some.inj hn).symm, rfl, by decide⟩

section Scan
variable (w : fat.Wf) (hon : L.On fat s₀.fs.disk l) (hends : L.Ends fat s₀.fs.disk l)
include w hon hends

theorem goes_dirnext {frame : Frame} {fd : Int} {addr : Nat} (hin : Readdir.Inside ⟨frame, fd, addr⟩ (s₀.sz i)) :
    Goes fat ep l L s₀ i (dirnext fat i frame addr) (.idle (s₀.sz i)) fun x t' => t' = .idle (s₀.sz i) ∧ x ≠ -1 := by
  refine goes_file.bind fun f t' hf => ?_
  obtain ⟨rfl, hreadable, hentry, -⟩ := hf
  rw [if_neg (by rw [hreadable]; decide), hentry]
  refine goes_dirent.bind fun d t' hd => ?_
  obtain ⟨rfl, hattr, -, -⟩ := hd
  rw [if_neg hattr]
  refine (goes_dirnextFind w hon hends).bind fun r t' ht' => ?_
  obtain ⟨q, k, hr, htype, hnot, rfl⟩ | ⟨htype, rfl⟩ := ht'
  · rw [if_neg hnot]
    exact goes_dirnextCopy hends hr htype hin
  · rw [if_pos htype]
    intro s T s' hI ht hC hs
    cases hs
    obtain ⟨p, ret, h⟩ := hI
    have hend : (reports 0 L.items)[p]? = none := h.turn.behind i (by rw [ht]; rfl)
    have hnone : ∀ j, (T j).hand = none := fun j => Stage.hand_eq_none ((h.phase j).symm.trans (hC j))
    have hgiven := h.given.finish hend hnone
    rw [← same Stage.hand ht (.idle (s₀.sz i)) rfl] at hgiven
    have hturn := h.turn.leave (i := i)
    rw [← same Stage.at? ht (.idle (s₀.sz i)) rfl] at hturn
    exact ⟨trivial, .idle (s₀.sz i), h.step (h.keep_locks ht rfl) hturn hgiven (h.keep_phase ht rfl) rfl ⟨rfl, rfl⟩
      fun n hn => (Option.some.inj hn).symm, rfl, by decide⟩

/-- It fails only where the descriptor is not open. -/
theorem goes_sysReaddir (c : Readdir) {sz : Nat} (hin : c.Inside sz) :
    Goes fat ep l L s₀ i (sysReaddir fat i c.frame c.fd c.addr) (.idle sz)
      fun x t' => t' = .idle sz ∧ (x = -1 → s₀.isOpen i c.fd = false) := by
  refine goes_look fun s T p ret h ht _ => ?_
  obtain rfl : sz = s₀.sz i := h.sizes i sz (by rw [ht]; rfl)
  show Goes fat ep l L s₀ i (if s.isOpen i c.fd then dirnext fat i c.frame c.addr else return -1) _ _
  by_cases hopen : s.isOpen i c.fd
  · rw [if_pos hopen]
    exact (goes_dirnext w hon hends hin).mono fun x t' hx => ⟨hx.1, fun hfail => absurd hfail hx.2⟩
  · rw [if_neg hopen]
    refine ⟨rfl, fun _ => ?_⟩
    have hsame : s₀.isOpen i c.fd = s.isOpen i c.fd := by
      unfold System.isOpen
      rw [h.ofile]
    rw [hsame]
    exact Bool.eq_false_iff.mpr hopen

end Scan

end Sections

/-! ### What the processes are told -/

/-- What a process has been told: the structures that have been copied out to it, each with the locals it is from, one that
it still has, whether a call has returned 0, and descriptors that are not open. -/
structure Told where
  copied : List (Frame × List Byte)
  shows : Option (Nat × List Byte)
  ended : Prop
  closed : List Int

/-- All of it is so. -/
structure Holds (s₀ s : System) (T : Nat → Told) : Prop where
  copied : ∀ i, (s.returned.filter fun x => x.pid = i).map (fun x => (x.frame, statOf x.st)) = (T i).copied
  shows : ∀ i a b, (T i).shows = some (a, b) → s.statAt i a = b
  ended : ∀ i, (T i).ended → s.ended = true
  closed : ∀ i, ∀ fd ∈ (T i).closed, s₀.isOpen i fd = false

section Tells
variable {s₀ s s' : System} {T : Nat → Told} {i : Nat} {t : Told} {fat : Fat}

theorem Holds.kept (h : Holds s₀ s T) (hk : Kept s s') : Holds s₀ s' T := by
  refine ⟨fun i => ?_, fun i a b hi => ?_, fun i hi => ?_, h.closed⟩
  · rw [hk.returned]
    exact h.copied i
  · unfold System.statAt
    rw [hk.user]
    exact h.shows i a b hi
  · rw [hk.ended]
    exact h.ended i hi

/-- A process is told something more, and the others nothing. -/
theorem Holds.tell (h : Holds s₀ s T) (t' : Told)
    (hcopied : ∀ j, (s'.returned.filter fun x => x.pid = j).map (fun x => (x.frame, statOf x.st)) =
      if j = i then t'.copied else (T j).copied)
    (hshows : ∀ a b, t'.shows = some (a, b) → s'.statAt i a = b) (hothers : ∀ j, j ≠ i → s'.user j = s.user j)
    (hended : t'.ended → s'.ended = true) (hstill : s.ended = true → s'.ended = true)
    (hclosed : ∀ fd ∈ t'.closed, s₀.isOpen i fd = false) : Holds s₀ s' (Function.update T i t') := by
  refine ⟨fun j => ?_, fun j a b hj => ?_, fun j hj => ?_, fun j fd hj => ?_⟩
  all_goals by_cases hji : j = i
  · rw [hcopied, if_pos hji, hji, Function.update_self]
  · rw [hcopied, if_neg hji, Function.update_of_ne hji]
  · rw [hji, Function.update_self] at hj
    rw [hji]
    exact hshows a b hj
  · rw [Function.update_of_ne hji] at hj
    unfold System.statAt
    rw [hothers j hji]
    exact h.shows j a b hj
  · rw [hji, Function.update_self] at hj
    exact hended hj
  · rw [Function.update_of_ne hji] at hj
    exact hstill (h.ended j hj)
  · rw [hji, Function.update_self] at hj
    rw [hji]
    exact hclosed fd hj
  · rw [Function.update_of_ne hji] at hj
    exact h.closed j fd hj

/-- Call `i` runs the program, and its process is told what `Q` says. -/
abbrev Tells (s₀ : System) {α : Type} (i : Nat) (p : Sys α) (t : Told) (Q : α → Told → Prop) : Prop :=
  Triple (Holds s₀) Careful (fun _ _ => True) (fun _ => True) i p t Q

theorem tells_within {α : Type} {p : Sys α} (hp : p.Within (fun _ => Kept) fun _ => True) : Tells s₀ i p t fun _ t' => t' = t :=
  .within (fun _ _ _ _ hk h => ⟨trivial, h.kept hk⟩) hp

/-- What is copied out stands at the address. -/
theorem statAt_copied (s : System) (pid addr : Nat) (st : Bytes) : (s.copied pid addr st statSz).statAt pid addr = statOf st := by
  refine List.map_congr_left fun o ho => ?_
  have hlt := List.mem_range.mp ho
  rw [System.copied_user, overwrite_in _ _ (by omega) (by omega), Nat.add_sub_cancel_left]

theorem tells_file : Tells s₀ i file t fun _ t' => t' = t := tells_within (.look _ _ Kept.refl fun _ => trivial)

theorem tells_argfd (fd : Int) : Tells s₀ i (argfd i fd) t fun _ t' => t' = t :=
  tells_within (.look _ _ Kept.refl fun _ => trivial)

theorem tells_copyout2 (addr : Nat) (st : Bytes) : Tells s₀ i (copyout2 i addr st statSz) t fun x t' =>
    (x = 0 ∧ t' = { t with shows := some (addr, statOf st) }) ∨ (x = -1 ∧ t' = t) := by
  intro s T s' hI ht _ hs
  cases hs
  by_cases hout : s.outside i addr statSz
  · rw [if_pos hout]
    refine ⟨trivial, t, ?_, .inr ⟨if_pos hout, rfl⟩⟩
    rw [← ht, Function.update_eq_self]
    exact hI
  · rw [if_neg hout]
    refine ⟨trivial, _, hI.tell _ (fun j => ?_) (fun a b hab => ?_) (fun j hj => Function.update_of_ne hj _ _) (fun he => ?_) id
      (fun fd hfd => ?_), .inl ⟨if_neg hout, rfl⟩⟩
    · by_cases hj : j = i
      · rw [if_pos hj, hj, ← ht]
        exact hI.copied i
      · rw [if_neg hj]
        exact hI.copied j
    · cases hab
      exact statAt_copied s i addr st
    · rw [← ht] at he
      exact hI.ended i he
    · rw [← ht] at hfd
      exact hI.closed i fd hfd

/-- What a process has been told when its call has returned `x`. -/
def Told.After (t : Told) (frame : Frame) (addr : Nat) (x : Int) (t' : Told) : Prop :=
  (x = 1 ∧ ∃ b, t' = { t with copied := t.copied ++ [(frame, b)], shows := some (addr, b) }) ∨
    (x = 0 ∧ t' = { t with ended := True }) ∨ (x = -1 ∧ t' = t)

theorem tells_dirnextCopy (frame : Frame) (addr : Nat) (r : Next) :
    Tells s₀ i (dirnextCopy i frame addr r) t (t.After frame addr) := by
  refine (tells_within (within_moveOff _)).bind fun _ t₁ ht₁ => ?_
  subst ht₁
  refine (tells_within (within_setPhase _ _)).bind fun _ t₂ ht₂ => ?_
  subst ht₂
  refine (tells_copyout2 addr _).bind fun x t₃ hx => ?_
  obtain ⟨rfl, rfl⟩ | ⟨rfl, rfl⟩ := hx
  · rw [if_neg (by decide)]
    intro s T s' hI ht _ hs
    cases hs
    refine ⟨trivial, _, hI.tell _ (fun j => ?_) (fun a b hab => ?_) (fun _ _ => rfl) (fun he => ?_) id (fun fd hfd => ?_),
      .inl ⟨rfl, statOf (estat (Next.fill r frame.de) frame.dev frame.st), rfl⟩⟩
    · rw [List.filter_append, List.map_append, hI.copied]
      by_cases hj : j = i
      · rw [if_pos hj, hj, ht, List.filter_singleton]
        simp
      · rw [if_neg hj, List.filter_singleton]
        simp [Ne.symm hj]
    · exact hI.shows i a b (by rw [ht]; exact hab)
    · exact hI.ended i (by rw [ht]; exact he)
    · exact hI.closed i fd (by rw [ht]; exact hfd)
  · rw [if_pos (by decide)]
    refine (tells_within (within_setPhase _ _)).bind fun _ t₄ ht₄ => ?_
    exact .inr (.inr ⟨rfl, ht₄⟩)

theorem tells_dirnext (frame : Frame) (addr : Nat) : Tells s₀ i (dirnext fat i frame addr) t (t.After frame addr) := by
  refine tells_file.bind fun f t₁ ht₁ => ?_
  subst ht₁
  by_cases hreadable : f.readable = false
  · rw [if_pos hreadable]
    exact .inr (.inr ⟨rfl, rfl⟩)
  rw [if_neg hreadable]
  cases f.ep with
  | none => exact trivial
  | some ep =>
    refine (tells_within (within_onFs _)).bind fun d t₂ ht₂ => ?_
    subst ht₂
    by_cases hattr : d.attr &&& attrDirectory = 0
    · rw [if_pos hattr]
      exact .inr (.inr ⟨rfl, rfl⟩)
    rw [if_neg hattr]
    refine (tells_within (within_dirnextFind ..)).bind fun r t₃ ht₃ => ?_
    subst ht₃
    by_cases htype : r.type = -1
    · rw [if_pos htype]
      intro s T s' hI ht _ hs
      cases hs
      refine ⟨trivial, _, hI.tell _ (fun j => ?_) (fun a b hab => ?_) (fun _ _ => rfl) (fun _ => rfl) (fun _ => rfl) (fun fd hfd => ?_),
        .inr (.inl ⟨rfl, rfl⟩)⟩
      · by_cases hj : j = i
        · rw [if_pos hj, hj, ← ht]
          exact hI.copied i
        · rw [if_neg hj]
          exact hI.copied j
      · exact hI.shows i a b (by rw [ht]; exact hab)
      · exact hI.closed i fd (by rw [ht]; exact hfd)
    · rw [if_neg htype]
      exact tells_dirnextCopy frame addr r

theorem tells_sysReaddir (c : Readdir) :
    Tells s₀ i (sysReaddir fat i c.frame c.fd c.addr) t (t.After c.frame c.addr) := by
  refine (tells_argfd c.fd).bind fun isOpen t₁ ht₁ => ?_
  subst ht₁
  cases isOpen with
  | false => exact .inr (.inr ⟨rfl, rfl⟩)
  | true => exact tells_dirnext c.frame c.addr

end Tells

/-! ### Both -/

/-- What an idle process has been told is what it remembers. -/
structure Reader.Knows (u : Reader) (t : Stage × Told) : Prop where
  idle : t.1 = .idle u.sz
  found : t.2.copied = u.found.map fun a => (a.call.frame, a.stat)
  results : ∀ a ∈ u.answers, a.result = 1 ∨ (a.result = 0 ∧ t.2.ended) ∨ (a.result = -1 ∧ a.call.fd ∈ t.2.closed)

section Both
variable {fat : Fat} {ep : Ptr} {l : List Nat} {s₀ : System} {i : Nat}

/-- The two invariants. -/
def Reads (fat : Fat) (ep : Ptr) (l : List Nat) (L : Layout) (s₀ s : System) (T : Nat → Stage × Told) : Prop :=
  Listed fat ep l L s₀ s (fun j => (T j).1) ∧ Holds s₀ s fun j => (T j).2

/-- One more answer. -/
theorem Reader.Knows.add {u : Reader} {t t' : Stage × Told} (h : u.Knows t) (a : Answer) (hidle : t'.1 = .idle u.sz)
    (hcopied : t'.2.copied = t.2.copied ++ if a.result = 1 then [(a.call.frame, a.stat)] else [])
    (hended : t.2.ended → t'.2.ended) (hclosed : t.2.closed ⊆ t'.2.closed)
    (ha : a.result = 1 ∨ (a.result = 0 ∧ t'.2.ended) ∨ (a.result = -1 ∧ a.call.fd ∈ t'.2.closed)) :
    Reader.Knows { u with answers := u.answers ++ [a] } t' := by
  refine ⟨hidle, ?_, fun a' ha' => ?_⟩
  · unfold Reader.found
    rw [hcopied, h.found, List.filter_append, List.map_append, List.filter_singleton]
    by_cases hone : a.result = 1
    · simp [hone, Reader.found]
    · simp [hone, Reader.found]
  · rcases List.mem_append.mp ha' with hold | hnew
    · exact (h.results a' hold).imp id (Or.imp (And.imp_right hended) (And.imp_right (@hclosed _)))
    · rw [List.mem_singleton.mp hnew]
      exact ha

/-- A process is told that a descriptor is not open. -/
theorem Reads.close {s : System} {T : Nat → Stage × Told} (h : Reads fat ep l L s₀ s T) {x : Stage} {told : Told}
    (ht : T i = (x, told)) {fd : Int} (hfd : s₀.isOpen i fd = false) :
    Reads fat ep l L s₀ s (Function.update T i (x, { told with closed := told.closed ++ [fd] })) := by
  have hstage : (T i).1 = x := by rw [ht]
  have htold : (T i).2 = told := by rw [ht]
  have hfst : (fun j => (Function.update T i (x, { told with closed := told.closed ++ [fd] }) j).1) = fun j => (T j).1 := by
    rw [show (fun j => (Function.update T i (x, { told with closed := told.closed ++ [fd] }) j).1) =
      Function.update (fun j => (T j).1) i x from Function.comp_update Prod.fst T i _, ← hstage]
    exact Function.update_eq_self i fun j => (T j).1
  have hsnd : (fun j => (Function.update T i (x, { told with closed := told.closed ++ [fd] }) j).2) =
      Function.update (fun j => (T j).2) i { told with closed := told.closed ++ [fd] } := Function.comp_update Prod.snd T i _
  unfold Reads
  rw [hfst, hsnd]
  refine ⟨h.1, h.2.tell _ (fun j => ?_) (fun a b hab => ?_) (fun _ _ => rfl) (fun he => ?_) id (fun fd' hfd' => ?_)⟩
  · by_cases hj : j = i
    · rw [if_pos hj, hj, ← htold]
      exact h.2.copied i
    · rw [if_neg hj]
      exact h.2.copied j
  · exact h.2.shows i a b (by rw [htold]; exact hab)
  · exact h.2.ended i (by rw [htold]; exact he)
  · rcases List.mem_append.mp hfd' with hold | hnew
    · exact h.2.closed i fd' (by rw [htold]; exact hold)
    · rw [List.mem_singleton.mp hnew]
      exact hfd

/-- A process looks at what its call has left. -/
theorem Reader.Knows.look {u : Reader} {told : Told} {c : Readdir} {x : Int} (h : u.Knows (.idle u.sz, told)) {told' : Told}
    (htold : told.After c.frame c.addr x told') (hopen : x = -1 → s₀.isOpen i c.fd = false) :
    Triple (Reads fat ep l L s₀) Careful (fun _ _ => True ∧ True) (fun _ => False ∧ True) i
      (statAt i c.addr >>= fun stat => .ret { u with answers := u.answers ++ [⟨c, x, stat⟩] }) (.idle u.sz, told')
      Reader.Knows := by
  intro s T s' hI ht _ hs
  cases hs
  have hkeep : Reads fat ep l L s₀ s (Function.update T i (.idle u.sz, told')) := by
    rw [← ht, Function.update_eq_self]
    exact hI
  obtain ⟨rfl, b, rfl⟩ | ⟨rfl, rfl⟩ | ⟨rfl, rfl⟩ := htold
  · have hstat : s.statAt i c.addr = b := hI.2.shows i _ _ (by rw [ht])
    rw [← hstat] at hkeep
    exact ⟨⟨trivial, trivial⟩, _, hkeep, h.add _ rfl rfl id (List.Subset.refl _) (.inl rfl)⟩
  · exact ⟨⟨trivial, trivial⟩, _, hkeep, h.add _ rfl (List.append_nil _).symm (fun _ => trivial) (List.Subset.refl _)
      (.inr (.inl ⟨rfl, trivial⟩))⟩
  · exact ⟨⟨trivial, trivial⟩, _, hI.close ht (hopen rfl), h.add _ rfl (List.append_nil _).symm id (List.subset_append_left ..)
      (.inr (.inr ⟨rfl, List.mem_append_right _ (List.mem_singleton_self _)⟩))⟩

/-- A call, from its first section to its last. -/
theorem reads_call (w : fat.Wf) (hon : L.On fat s₀.fs.disk l) (hends : L.Ends fat s₀.fs.disk l) {u : Reader} {c : Readdir}
    (hin : c.Inside u.sz) {t : Stage × Told} (h : u.Knows t) :
    Triple (Reads fat ep l L s₀) Careful (fun _ _ => True ∧ True) (fun _ => False ∧ True) i ((readdirs fat).body i u c) t
      Reader.Knows := by
  obtain ⟨stage, told⟩ := t
  obtain rfl : stage = .idle u.sz := h.idle
  have hgoes : Goes fat ep l L s₀ i (sysReaddir fat i c.frame c.fd c.addr) (.idle u.sz) _ := goes_sysReaddir w hon hends c hin
  have htells : Tells s₀ i (sysReaddir fat i c.frame c.fd c.addr) told _ := tells_sysReaddir c
  refine (hgoes.and htells).bind fun x t' hx => ?_
  obtain ⟨⟨hidle, hopen⟩, htold⟩ := hx
  obtain ⟨stage', told'⟩ := t'
  obtain rfl : stage' = .idle u.sz := hidle
  exact h.look htold hopen

end Both

/-- At the start nobody has been told anything. -/
theorem holds_start {s : System} (h : s.returned = []) : Holds s s fun _ => ⟨[], none, False, []⟩ := by
  refine ⟨fun i => ?_, fun i a b hi => (by cases hi), fun i hi => hi.elim, fun i fd hfd => (by cases hfd)⟩
  rw [h]
  rfl

/-- What belongs together can be marked by process. -/
theorem exists_tagged {ret : List (Nat × Next)} {returned : List Returned} (h : List.Forall₂ Copied ret returned) :
    ∃ tagged : List (Nat × (Nat × Next)), tagged.map Prod.snd = ret ∧
      List.Forall₂ (fun r x => r.1 = x.pid ∧ Copied r.2 x) tagged returned := by
  induction h with
  | nil => exact ⟨[], rfl, .nil⟩
  | cons hx _ ih =>
    rename_i r x _ _ _
    obtain ⟨tagged, rfl, htagged⟩ := ih
    exact ⟨(x.pid, r) :: tagged, rfl, .cons ⟨rfl, hx⟩ htagged⟩

/-- At the start nothing is behind the offset. -/
theorem Opened.listed {fat : Fat} {s : System} {ep : Ptr} {l : List Nat} (h : Opened fat s ep l L) :
    Listed fat ep l L s s fun pid => .idle (s.sz pid) := by
  have hgiven : Given L 0 [] (fun _ => none) s.returned s.ended := by
    rw [h.returned, h.ended]
    exact ⟨List.nodup_nil, List.nil_subset _, fun i r hr => (by cases hr), fun i j r hr => (by cases hr),
      fun r hr => (by cases hr), .nil, fun he => (by cases he)⟩
  have hturn : Turn L s.file.off 0 (fun _ => none) fun _ => false := by
    refine ⟨?_, Nat.zero_le _, fun i q hq => (by cases hq), fun i j hi => absurd rfl hi, fun i hi => (by cases hi)⟩
    rw [h.off, place_zero]
    rfl
  exact ⟨0, [], ⟨rfl, h.dir.attr, h.ref, fun _ => h.dir, fun i x hx => (by cases hx)⟩, ⟨h.readable, h.entry⟩, hturn, hgiven,
    rfl, rfl, fun i n hn => (Option.some.inj hn).symm, h.phase⟩

/-- Run alone from `s`, the program is careful, and it returns as `Q` says. -/
def Alone {α : Type} (p : Sys α) (s : System) (Q : α → System → Prop) : Prop :=
  p.Steps Careful s ∧ ∀ a s', p.run s = .done a s' → Q a s'

section Alone
variable {α β : Type} {s : System} {fat : Fat} {pid : Nat} {ep : Ptr}

theorem Alone.ret {a : α} {Q : α → System → Prop} (h : Q a s) : Alone (.ret a) s Q := by
  refine ⟨trivial, fun b s' hr => ?_⟩
  cases hr
  exact h

theorem Alone.act {m : Mark} {f : System → Option System} {k : System → Sys α} {Q : α → System → Prop} (hC : Careful m s)
    (hk : ∀ s', f s = some s' → Alone (k s) s' Q) : Alone (.act m f k) s Q := by
  refine ⟨⟨hC, fun s' hf => (hk s' hf).1⟩, fun a s' hr => ?_⟩
  rw [Prog.run_act] at hr
  cases hf : f s with
  | none =>
    rw [hf] at hr
    cases hr
  | some s₁ =>
    rw [hf] at hr
    exact (hk s₁ hf).2 a s' hr

theorem Alone.bind {p : Sys α} {q : α → Sys β} {Q : α → System → Prop} {R : β → System → Prop} (hp : Alone p s Q)
    (hq : ∀ a s', Q a s' → Alone (q a) s' R) : Alone (p >>= q) s R := by
  refine ⟨(Prog.steps_bind p q s).mpr ⟨hp.1, fun a s' hr => (hq a s' (hp.2 a s' hr)).1⟩, fun b s' hr => ?_⟩
  rw [Prog.run_bind] at hr
  cases hpr : p.run s with
  | done a s₁ =>
    rw [hpr] at hr
    exact (hq a s₁ (hp.2 a s₁ hpr)).2 b s' hr
  | stopped e =>
    rw [hpr] at hr
    cases hr
  | blocked =>
    rw [hpr] at hr
    cases hr

/-- A function of the file system has no history. -/
theorem alone_onFs (p : Fs α) : Alone (onFs p) s fun _ s' => s'.phase = s.phase := by
  have hsteps : ∀ s, (onFs p).Steps Careful s := by
    unfold onFs
    induction p with
    | ret a => exact fun _ => trivial
    | act m f k ih => exact fun s => ⟨trivial, fun s' _ => ih s.fs s'⟩
    | stop e => exact fun _ => trivial
  refine ⟨hsteps s, fun a s' hr => ?_⟩
  rw [run_onFs] at hr
  cases hp : p.run s.fs with
  | done b fs =>
    rw [hp] at hr
    cases hr
    rfl
  | stopped e =>
    rw [hp] at hr
    cases hr
  | blocked =>
    rw [hp] at hr
    cases hr

theorem alone_dirnextLoop (n count : Nat) (hidle : ∀ j, s.phase j = .idle) :
    Alone (dirnextLoop fat ep 0 n count) s fun _ s' => ∀ j, s'.phase j = .idle := by
  induction n generalizing s count with
  | zero => exact ⟨trivial, fun a s' hr => (by cases hr)⟩
  | succ n ih =>
    refine Alone.act ⟨rfl, fun j => by rw [hidle j]; decide⟩ fun s' hs => ?_
    cases hs
    refine (alone_onFs _).bind fun r s' hs => ?_
    have hidle' : ∀ j, s'.phase j = .idle := fun j => by rw [hs]; exact hidle j
    by_cases htype : r.type = 0
    · rw [if_pos htype]
      refine Alone.bind (Q := fun _ s' => ∀ j, s'.phase j = .idle) ?_ fun _ s' hs => ih _ hs
      refine Alone.act trivial fun s'' hs => ?_
      cases hs
      refine Alone.act trivial fun s'' hs => ?_
      cases hs
      exact Alone.ret hidle'
    · rw [if_neg htype]
      exact Alone.ret hidle'

theorem alone_setPhase (x : Phase) : Alone (setPhase pid x) s fun _ s' => s'.phase = Function.update s.phase pid x := by
  refine Alone.act trivial fun s' hs => ?_
  cases hs
  exact Alone.ret rfl

theorem alone_dirnextCopy {frame : Frame} {addr : Nat} {r : Next} (hidle : ∀ j, j ≠ pid → s.phase j = .idle) :
    Alone (dirnextCopy pid frame addr r) s fun _ s' => ∀ j, s'.phase j = .idle := by
  have hdone : ∀ j, Function.update (Function.update s.phase pid .moved) pid .idle j = .idle := by
    intro j
    by_cases hj : j = pid
    · subst hj
      exact Function.update_self ..
    · rw [Function.update_of_ne hj, Function.update_of_ne hj]
      exact hidle j hj
  have hcopy : ∀ (st : Bytes) (s : System), Alone (copyout2 pid addr st statSz) s fun _ s' => s'.phase = s.phase := by
    intro st s
    refine Alone.act trivial fun s' hs => Alone.ret ?_
    cases hs
    split_ifs <;> rfl
  refine Alone.act trivial fun s' hs => ?_
  cases hs
  refine Alone.act trivial fun s' hs => ?_
  cases hs
  refine (alone_setPhase .moved).bind fun _ s₁ hs₁ => ?_
  refine (hcopy _ _).bind fun x s₂ hs₂ => ?_
  by_cases hx : x < 0
  · rw [if_pos hx]
    refine (alone_setPhase .idle).bind fun _ s₃ hs₃ => Alone.ret fun j => ?_
    rw [hs₃, hs₂, hs₁]
    exact hdone j
  · rw [if_neg hx]
    refine Alone.act trivial fun s₃ hs => Alone.ret fun j => ?_
    cases hs
    show Function.update s₂.phase pid .idle j = .idle
    rw [hs₂, hs₁]
    exact hdone j

/-- **A call that runs alone is careful**, where `de` is not marked valid. -/
theorem alone_sysReaddir {frame : Frame} {fd : Int} {addr : Nat} (hvalid : frame.de.valid = 0) (hidle : ∀ j, s.phase j = .idle) :
    Alone (sysReaddir fat pid frame fd addr) s fun _ s' => ∀ j, s'.phase j = .idle := by
  refine Alone.act trivial fun s' hs => ?_
  cases hs
  show Alone (if s.isOpen pid fd then dirnext fat pid frame addr else return -1) s _
  by_cases hopen : s.isOpen pid fd
  swap
  · rw [if_neg hopen]
    exact Alone.ret hidle
  rw [if_pos hopen]
  refine Alone.act trivial fun s' hs => ?_
  cases hs
  show Alone (if s.file.readable = false then return -1 else _) s _
  by_cases hreadable : s.file.readable = false
  · rw [if_pos hreadable]
    exact Alone.ret hidle
  rw [if_neg hreadable]
  cases hep : s.file.ep with
  | none => exact ⟨trivial, fun a s' hr => (by cases hr)⟩
  | some ep =>
    refine (alone_onFs _).bind fun d s₁ hs₁ => ?_
    have hidle₁ : ∀ j, s₁.phase j = .idle := fun j => by rw [hs₁]; exact hidle j
    by_cases hattr : d.attr &&& attrDirectory = 0
    · rw [if_pos hattr]
      exact Alone.ret hidle₁
    · rw [if_neg hattr, hvalid]
      refine Alone.bind (Q := fun r s' => s'.phase = Function.update (fun _ => .idle) pid (if r.type = -1 then .idle else .found))
        ?_ fun r s₂ hs₂ => ?_
      · refine (alone_onFs _).bind fun _ s₂ hs₂ => ?_
        refine (alone_dirnextLoop _ _ fun j => by rw [hs₂]; exact hidle₁ j).bind fun r s₃ hs₃ => ?_
        refine (alone_setPhase _).bind fun _ s₄ hs₄ => ?_
        refine (alone_onFs _).bind fun _ s₅ hs₅ => Alone.ret ?_
        rw [hs₅, hs₄, funext hs₃]
      · by_cases htype : r.type = -1
        · rw [if_pos htype, Function.update_eq_self_iff.mpr rfl] at hs₂
          rw [if_pos htype]
          refine Alone.act (fun j => by rw [hs₂]) fun s₃ hs => Alone.ret fun j => ?_
          cases hs
          exact congrFun hs₂ j
        · rw [if_neg htype]
          refine alone_dirnextCopy fun j hj => ?_
          rw [hs₂, Function.update_of_ne hj]

theorem alone_call {u : Reader} {c : Readdir} (hvalid : c.frame.de.valid = 0) (hidle : ∀ j, s.phase j = .idle) :
    Alone ((readdirs fat).body pid u c) s fun _ s' => ∀ j, s'.phase j = .idle := by
  refine (alone_sysReaddir hvalid hidle).bind fun x s' hs => Alone.act trivial fun s'' h => ?_
  cases h
  exact Alone.ret hs

end Alone

/-! ### A directory of one record -/

/-- The directory with a gap and one record, open on descriptor 0 of processes with 4096 bytes of memory. -/
def gapOpen : System where
  fs := gapDir
  file := ⟨.entry, true, some .root, 0⟩
  ofile _ fd := fd = 0
  sz _ := 4096
  user _ _ := 0
  phase _ := .idle
  returned := []
  ended := false

theorem gapOpen_opened : Opened oneClus gapOpen .root [2] gapLayout where
  readable := rfl
  entry := rfl
  off := rfl
  dir := dirAt_oneClus (by decide) (by decide) _
  on := gapLayout_on
  ref := by decide
  lock := rfl
  phase _ := rfl
  returned := rfl
  ended := rfl

/-- A call on descriptor 0, with this in `de.valid`. -/
def readInto (valid : Int) : Readdir := ⟨⟨fun _ => 0, { Dirent.zero with valid }, 0⟩, 0, 0⟩

/-- A scan begins with a `de` that is not marked valid. -/
def Cleared : Mark → System → Prop
  | .scan valid, _ => valid = 0
  | _, _ => True

/-- What the calls are to do in every run that meets `C`. -/
def ReaddirLists (C : Mark → System → Prop) : Prop :=
  ∀ (fat : Fat) (s : System) (ep : Ptr) (l : List Nat) (L : Layout) (g : Config Mark Stop System Nat Reader), fat.Wf →
    Opened fat s ep l L → L.Ends fat s.fs.disk l → Reach (readdirs fat) C (start s) g → ListsOnce L s g

instance : (m : Mark) → (s : System) → Decidable (Cleared m s)
  | .scan valid, _ => inferInstanceAs (Decidable (valid = 0))
  | .fs _, _ => isTrue trivial
  | .plain, _ => isTrue trivial
  | .ended, _ => isTrue trivial

instance (u : Reader) (c : Readdir) : Decidable ((readdirs oneClus).enabled u c) := inferInstanceAs (Decidable (c.Inside u.sz))

instance (u v u' v' : Reader) : Decidable ((readdirs oneClus).pass u v u' v') := isFalse id

/-- The first process has stopped. -/
def FirstStopped (g : Config Mark Stop System Nat Reader) : Bool :=
  match g.thread 0 with
  | .stop _ => true
  | _ => false

/-- The process has been given one record. -/
def HasOne (pid : Nat) (g : Config Mark Stop System Nat Reader) : Bool :=
  match g.thread pid with
  | .ret u => u.found.length == 1
  | _ => false

/-- One of the records is this process's. -/
theorem ListsOnce.mem {s : System} {g : Config Mark Stop System Nat Reader} {pid : Nat} {ret : List (Nat × (Nat × Next))}
    (h : ∀ pid u, g.thread pid = .ret u →
      List.Forall₂ Answer.Shows ((ret.filter fun x => x.1 = pid).map Prod.snd) u.found ∧
      ∀ a ∈ u.answers, a.result = 1 ∨ (a.result = 0 ∧ records L ⊆ ret.map Prod.snd) ∨
        (a.result = -1 ∧ s.isOpen pid a.call.fd = false)) (hone : HasOne pid g = true) : ∃ x ∈ ret, x.1 = pid := by
  unfold HasOne at hone
  cases hp : g.thread pid with
  | ret u =>
    rw [hp] at hone
    have hlen := (h pid u hp).1.length_eq
    rw [beq_iff_eq.mp hone, List.length_map] at hlen
    obtain ⟨x, hx⟩ := List.length_eq_one_iff.mp hlen
    have hmem := List.mem_filter.mp (hx ▸ List.mem_singleton_self x)
    exact ⟨x, hmem.1, by simpa using hmem.2⟩
  | act m f k =>
    rw [hp] at hone
    cases hone
  | stop e =>
    rw [hp] at hone
    cases hone

end Farron.Stat
