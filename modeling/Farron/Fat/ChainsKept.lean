import Farron.Fat.Growth

/-! The chains of a volume under concurrent growth, creation and truncation.

Any number of processes write files, extend directories, create directories and
truncate, each under the locks of the entries it works on; a process may use the
entries it has handles on, and hand these over. Whatever the interleaving of their
sections, the clusters in use stay carved into the chains of the files and what
the calls in progress own: a cluster taken and not linked yet, or what is left of
a chain being truncated (`WellCarved`). -/
namespace Farron
open Resumption Chains

inductive ChainCall
  | ewrite (e : Ptr) (buf : Buf) (off n : Nat)
  /-- `reloc_clus` with `alloc` on a directory. -/
  | extend (dp : Ptr) (off : Nat)
  /-- What `ealloc` does for a new directory in the slot `ep`. -/
  | mkdir (dp ep : Ptr) (name : CString) (off : Nat)
  | etrunc (e : Ptr)

namespace ChainCall

/-- A handle on the entry worked on, and offsets that are words. -/
def Enabled (handles : Ptr → Prop) : ChainCall → Prop
  | .ewrite e .. | .etrunc e => handles e
  | .extend dp off | .mkdir dp _ _ off => handles dp ∧ off < 2 ^ 32

end ChainCall

section Calls
variable (fat : Fat) (pid : Nat)

/-- Callers of `emake` have seen that `dp` is a directory that has not been removed. -/
def extendIn (dp : Ptr) (off : Nat) : Fs Unit := do
  let d ← dirent dp
  if d.attr &&& attrDirectory = 0 ∨ d.valid ≠ 1 then return
  else
    let _ ← relocClus fat dp off true
    return

/-- Whether `ep` has become a directory in `dp`. -/
def mkdirIn (dp ep : Ptr) (name : CString) (off : Nat) : Fs Bool := do
  let d ← dirent dp
  if d.attr &&& attrDirectory = 0 ∨ d.valid ≠ 1 then return false
  else
    eallocNew fat pid dp ep name attrDirectory off
    return true

/-- A file is truncated when it is opened so, a directory once it has been removed. -/
def truncIn (e : Ptr) : Fs Unit := do
  let d ← dirent e
  if d.attr &&& attrDirectory ≠ 0 ∧ d.valid = 1 then return else etrunc fat e

/-- A call, ending in the handles its process has afterwards. -/
def ChainCall.body (handles : Ptr → Prop) : ChainCall → Fs (Ptr → Prop)
  | .ewrite e buf off n => do
    elock pid (some e)
    let _ ← Farron.ewrite fat e buf off n
    eunlock pid (some e)
    return handles
  | .extend dp off => do
    elock pid (some dp)
    extendIn fat dp off
    eunlock pid (some dp)
    return handles
  | .mkdir dp ep name off => do
    elock pid (some dp)
    let made ← mkdirIn fat pid dp ep name off
    eunlock pid (some dp)
    return if made then fun e => handles e ∨ e = ep else handles
  | .etrunc e => do
    elock pid (some e)
    truncIn fat e
    eunlock pid (some e)
    return handles

end Calls

/-- The processes: calls on entries they have handles on, and handles passed on. -/
def chainClient (fat : Fat) {ι : Type} (pid : ι → Nat) :
    Client Label Stop State ι (Ptr → Prop) ChainCall where
  enabled handles c := c.Enabled handles
  body i handles c := c.body fat (pid i) handles
  pass l₁ l₂ l₁' l₂' := l₁' = l₁ ∧ (∀ e, l₂ e → l₂' e) ∧ ∀ e, l₂' e → l₂ e ∨ l₁ e

/-- No call in progress; the chains are the entries' and the other files'. An entry has
none that starts elsewhere, and no file has lost its slot yet. -/
structure Mounted (fat : Fat) {ι : Type} (s : State) (handles : ι → Ptr → Prop)
    (own : Owner ι → List Nat) : Prop where
  carved : Carved fat s.disk own
  process : ∀ i, own (.process i) = []
  unlocked : ∀ e, (s.dirents e).lock = none
  cached : ∀ e c, (own (.cached e)).head? = some c → (s.dirents e).firstClus = c
  retired : ∀ n, own (.retired n) = []
  ready : ∀ i e, handles i e → Ready (s.dirents e) (own (.cached e))

/-- The chains of a configuration. `live` are the entries that have been opened, `own₀`
the chains that the files which were not cached had at first, and have still. Besides
these a chain has a cached entry that it starts at, or a file that has lost its slot,
whose entry it started at then; or a call in progress owns what it has taken and not
linked yet, or not freed yet. -/
structure WellCarved (fat : Fat) {ι : Type} (pid : ι → Nat) (live : Ptr → Prop) (own₀ : Nat → List Nat)
    (g : Config Label Stop State ι (Ptr → Prop)) (own : Owner ι → List Nat) (phase : ι → Phase) :
    Prop where
  carved : Carved fat g.shared.disk own
  others : ∀ k, own (.other k) = own₀ k
  cached : ∀ e c, (own (.cached e)).head? = some c → (g.shared.dirents e).firstClus = c
  retired : ∀ n c, (own (.retired n)).head? = some c → g.shared.retired[n]? = some c
  entries : ∀ e, live e → (g.shared.dirents e).firstClus = (own (.cached e)).headD 0 ∨
    ∃ i, phase i = .fresh e ∨ ∃ freed, phase i = .truncating e freed
  idle : ∀ i handles, g.thread i = .ret handles →
    phase i = .steady ∧ own (.process i) = [] ∧ ∀ e, handles e → live e
  steady : ∀ i, phase i = .steady → (own (.process i)).length ≤ 1
  fresh : ∀ i e, phase i = .fresh e → own (.process i) = []
  truncating : ∀ i e freed, phase i = .truncating e freed → own (.cached e) = [] ∧
    (g.shared.dirents e).lock = some (pid i) ∧
    (g.shared.dirents e).firstClus = (freed ++ own (.process i)).headD 0

/-- Every interleaving whose sections meet `C` stays well carved. -/
def ChainsStay (C : Fat → Label → State → Prop) : Prop :=
  ∀ (fat : Fat) (ι : Type) (_ : DecidableEq ι) (pid : ι → Nat) (s : State) (handles : ι → Ptr → Prop)
    (own : Owner ι → List Nat) (g : Config Label Stop State ι (Ptr → Prop)),
    fat.Wf → Mounted fat s handles own →
    Reach (chainClient fat pid) (C fat) ⟨s, fun i => .ret (handles i)⟩ g →
    ∃ live own' phase, (∀ i e, handles i e → live e) ∧
      WellCarved fat pid live (fun k => own (.other k)) g own' phase

/-! ### The calls -/

section Triples
variable {fat : Fat} {ι : Type} [DecidableEq ι] {pid : ι → Nat} {live : Ptr → Prop}
  {own₀ : Nat → List Nat} {i : ι} {t : Token} {e : Ptr} {d : Dirent} {l : List Nat}

theorem Token.calm_idle (handles : Ptr → Prop) : (Token.idle handles).Calm :=
  ⟨rfl, rfl, fun _ _ _ _ h => nomatch h⟩

theorem Token.Calm.eq_idle (ht : t.Calm) (hh : ∀ e, t.held e = none) : t = .idle t.handles := by
  have hheld : t.held = fun _ => none := funext hh
  unfold Token.idle
  rw [← hheld, ← ht.loose, ← ht.phase]

/-- A call on one entry: its lock is taken, the call made, the lock given back. -/
theorem keeps_locked {handles : Ptr → Prop} (he : handles e) {α : Type} {p : Fs α}
    (hp : ∀ t d l, t.Calm → t.Holding fat e d l → Ready d l →
      Keeps fat pid live own₀ i p t fun _ t' => Readied t t' e) :
    Keeps fat pid live own₀ i (do
      elock (pid i) (some e)
      let _ ← p
      eunlock (pid i) (some e)
      return handles) (.idle handles) fun h t => t = .idle h := by
  apply Triple.bind (keeps_elock (Token.calm_idle handles) he)
  intro _ t₁ h₁
  obtain ⟨d₁, l₁, heq₁, hcalm₁, hhold₁, hready₁, hnone⟩ := h₁
  apply Triple.bind (hp t₁ d₁ l₁ hcalm₁ hhold₁ hready₁)
  intro _ t₂ h₂
  obtain ⟨d₂, l₂, heq₂, hcalm₂, hheld₂, hready₂⟩ := h₂
  have heq : t₂ = (Token.idle handles).hold e d₂ l₂ := by
    rw [heq₂, heq₁, Token.hold_hold]
  apply Triple.bind (keeps_eunlock hcalm₂ hheld₂ hready₂ handles _ _)
  · intro _ t₃ h₃
    refine Triple.ret ?_
    rw [h₃.1, heq, Token.hold_drop _ _ _ _ _ hnone]
    rfl
  · intro e' he'
    rw [heq] at he'
    exact he'
  · intro e' he'
    rw [heq]
    exact .inl he'

theorem keeps_extendIn (w : fat.Wf) {off : Nat} (hoff : off < 2 ^ 32) (ht : t.Calm)
    (hh : t.Holding fat e d l) (hr : Ready d l) :
    Keeps fat pid live own₀ i (extendIn fat e off) t fun _ t' => Readied t t' e := by
  simp only [extendIn]
  apply Triple.bind (keeps_dirent hh.held)
  intro d₁ t₁ h₁
  obtain ⟨rfl, rfl⟩ := h₁
  by_cases hno : d₁.attr &&& attrDirectory = 0 ∨ d₁.valid ≠ 1
  · rw [if_pos hno]
    exact Triple.ret ⟨d₁, l, (Token.hold_self hh.held).symm, ht, hh.held, hr⟩
  · rw [if_neg hno]
    have hne : l ≠ [] := hr.directory (fun h => hno (.inl h)) (by
      by_contra h
      exact hno (.inr h))
    apply Triple.bind (keeps_relocClus w hoff ht hh hne)
    intro _ t₂ h₂
    exact Triple.ret h₂.2.keeping.readied

theorem keeps_truncIn (w : fat.Wf) (ht : t.Calm) (hh : t.Holding fat e d l) (hr : Ready d l) :
    Keeps fat pid live own₀ i (truncIn fat e) t fun _ t' => Readied t t' e := by
  simp only [truncIn]
  apply Triple.bind (keeps_dirent hh.held)
  intro d₁ t₁ h₁
  obtain ⟨rfl, rfl⟩ := h₁
  by_cases hdir : d₁.attr &&& attrDirectory ≠ 0 ∧ d₁.valid = 1
  · rw [if_pos hdir]
    exact Triple.ret ⟨d₁, l, (Token.hold_self hh.held).symm, ht, hh.held, hr⟩
  · rw [if_neg hdir]
    exact keeps_etrunc w ht hh hdir

theorem keeps_mkdir (w : fat.Wf) {handles : Ptr → Prop} {dp ep : Ptr} (name : CString) {off : Nat}
    (hdp : handles dp) (hoff : off < 2 ^ 32) :
    Keeps fat pid live own₀ i ((ChainCall.mkdir dp ep name off).body fat (pid i) handles) (.idle handles)
      fun h t => t = .idle h := by
  simp only [ChainCall.body]
  apply Triple.bind (keeps_elock (Token.calm_idle handles) hdp)
  intro _ t₁ h₁
  obtain ⟨d₁, l₁, heq₁, hcalm₁, hhold₁, hready₁, hnone⟩ := h₁
  have hothers : ∀ e, e ≠ dp → t₁.held e = none := by
    intro e he
    rw [heq₁, Token.hold_held_ne _ _ _ he]
    rfl
  have hhandles : t₁.handles = handles := by
    rw [heq₁]
    rfl
  -- whatever was held besides `dp`, nothing is held in the end
  have hidle : ∀ t₂ : Token, t₂.Calm → (∀ e, e ≠ dp → t₂.held e = none) → ∀ h,
      (t₂.drop dp h).Calm → t₂.drop dp h = .idle h := by
    intro t₂ _ hne h hcalm
    refine hcalm.eq_idle fun e => ?_
    by_cases he : e = dp
    · rw [he]
      exact Token.drop_held_same ..
    · rw [Token.drop_held_ne _ _ he]
      exact hne e he
  simp only [mkdirIn]
  apply Triple.bind (p := do
    let d ← dirent dp
    if d.attr &&& attrDirectory = 0 ∨ d.valid ≠ 1 then return false
    else
      eallocNew fat (pid i) dp ep name attrDirectory off
      return true) (Q := fun made t => t.Calm ∧ (∃ d l, t.held dp = some (d, l) ∧ Ready d l) ∧
        (∀ e, e ≠ dp → t.held e = none) ∧ t.handles = if made then fun e => handles e ∨ e = ep else handles)
  · apply Triple.bind (keeps_dirent hhold₁.held)
    intro d₂ t₂ h₂
    obtain ⟨rfl, rfl⟩ := h₂
    by_cases hno : d₂.attr &&& attrDirectory = 0 ∨ d₂.valid ≠ 1
    · rw [if_pos hno]
      exact Triple.ret ⟨hcalm₁, ⟨d₂, l₁, hhold₁.held, hready₁⟩, hothers, hhandles⟩
    · rw [if_neg hno]
      have hne : l₁ ≠ [] := hready₁.directory (fun h => hno (.inl h)) (by
        by_contra h
        exact hno (.inr h))
      apply Triple.bind (keeps_eallocNew w name hoff hcalm₁ hhold₁ hne)
      intro _ t₃ h₃
      obtain ⟨hcalm₃, ⟨d₃, l₃, hhold₃, hne₃⟩, hsame, hh₃⟩ := h₃
      refine Triple.ret ⟨hcalm₃, ⟨d₃, l₃, hhold₃.held, hhold₃.holds, fun _ _ => hne₃⟩, ?_, ?_⟩
      · intro e he
        rw [hsame e he]
        exact hothers e he
      · rw [hh₃, hhandles]
        rfl
  · intro made t₂ h₂
    obtain ⟨hcalm₂, ⟨d₂, l₂, hheld₂, hready₂⟩, hne₂, hh₂⟩ := h₂
    apply Triple.bind (keeps_eunlock hcalm₂ hheld₂ hready₂ t₂.handles (fun _ h => h) fun _ h => .inl h)
    intro _ t₃ h₃
    refine Triple.ret ?_
    rw [h₃.1, hidle t₂ hcalm₂ hne₂ _ (h₃.1 ▸ h₃.2), hh₂]

theorem keeps_call (w : fat.Wf) (handles : Ptr → Prop) (c : ChainCall) (hc : c.Enabled handles) :
    Keeps fat pid live own₀ i (c.body fat (pid i) handles) (.idle handles) fun h t => t = .idle h := by
  cases c with
  | ewrite e buf off n => exact keeps_locked hc fun t d l ht hh hr => keeps_ewrite w buf off n ht hh hr
  | extend dp off => exact keeps_locked hc.1 fun t d l ht hh hr => keeps_extendIn w hc.2 ht hh hr
  | mkdir dp ep name off => exact keeps_mkdir w name hc.1 hc.2
  | etrunc e => exact keeps_locked hc fun t d l ht hh hr => keeps_truncIn w ht hh hr

/-- Handing handles over. -/
theorem Inv.pass {s : State} {T : ι → Token} {own : Owner ι → List Nat} (h : Inv fat pid live own₀ s T own)
    {j : ι} {l₁ l₂ l₂' : Ptr → Prop} (hi : T i = .idle l₁) (hj : T j = .idle l₂) (hsub : ∀ e, l₂ e → l₂' e)
    (hsup : ∀ e, l₂' e → l₂ e ∨ l₁ e) :
    Inv fat pid live own₀ s (Function.update T j (.idle l₂')) own := by
  have hsame : ∀ k, (Function.update T j (.idle l₂') k).held = (T k).held ∧
      (Function.update T j (.idle l₂') k).loose = (T k).loose := by
    intro k
    by_cases hk : k = j
    · rw [hk, Function.update_self, hj]
      exact ⟨rfl, rfl⟩
    · rw [Function.update_of_ne hk]
      exact ⟨rfl, rfl⟩
  refine ⟨h.carved, fun k => ?_, fun k e d l he => ?_, fun k k' e hk hk' => ?_, fun e he => ?_,
    fun k e hk he => ?_, fun k => ?_, fun e he => ?_, h.others, h.cached, h.retired⟩
  · rw [(hsame k).2]
    exact h.loose k
  · rw [(hsame k).1] at he
    exact h.held k e d l he
  · rw [(hsame k).1] at hk
    rw [(hsame k').1] at hk'
    exact h.once k k' e hk hk'
  · obtain ⟨k, hk⟩ := h.locked e he
    refine ⟨k, ?_⟩
    rw [(hsame k).1]
    exact hk
  · by_cases hkj : k = j
    · rw [hkj, Function.update_self] at hk
      rcases hsup e hk with hl | hl
      · exact h.ready j e (by rw [hj]; exact hl) he
      · exact h.ready i e (by rw [hi]; exact hl) he
    · rw [Function.update_of_ne hkj] at hk
      exact h.ready k e hk he
  · by_cases hkj : k = j
    · rw [hkj, Function.update_self]
      exact (Token.calm_idle l₂').shape
    · rw [Function.update_of_ne hkj]
      exact h.shape k
  · obtain ⟨k, hk⟩ := h.live e he
    refine ⟨k, ?_⟩
    by_cases hkj : k = j
    · rw [hkj, hj] at hk
      rw [hkj, Function.update_self]
      exact hsub e hk
    · rw [Function.update_of_ne hkj]
      exact hk

omit [DecidableEq ι] in
theorem Mounted.inv {s : State} {handles : ι → Ptr → Prop} {own : Owner ι → List Nat}
    (h : Mounted fat s handles own) :
    Inv fat pid (fun e => ∃ i, handles i e) (fun k => own (.other k)) s (fun i => .idle (handles i)) own where
  carved := h.carved
  loose := h.process
  held _ _ _ _ he := nomatch he
  once _ _ _ he := absurd rfl he
  locked e he := absurd (h.unlocked e) he
  ready i e he _ := h.ready i e he
  shape i := (Token.calm_idle (handles i)).shape
  live _ he := he
  others _ := rfl
  cached := h.cached
  retired n c hc := by
    rw [h.retired n] at hc
    cases hc

omit [DecidableEq ι] in
/-- What the tokens say about a configuration. -/
theorem Inv.wellCarved {g : Config Label Stop State ι (Ptr → Prop)} {T : ι → Token}
    {own : Owner ι → List Nat} (h : Inv fat pid live own₀ g.shared T own)
    (hidle : ∀ i handles, g.thread i = .ret handles → T i = .idle handles) :
    WellCarved fat pid (fun e => ∃ i, (T i).handles e) own₀ g own fun i => (T i).phase where
  carved := h.carved
  others := h.others
  cached := h.cached
  retired := h.retired
  entries e he := by
    obtain ⟨i, hi⟩ := he
    by_cases hlock : (g.shared.dirents e).lock = none
    · exact .inl (h.ready i e hi hlock).holds.first
    · obtain ⟨j, hj⟩ := h.locked e hlock
      obtain ⟨d, l, hdl⟩ : ∃ d l, (T j).held e = some (d, l) := by
        cases hc : (T j).held e with
        | none => exact absurd hc hj
        | some x => exact ⟨x.1, x.2, rfl⟩
      obtain ⟨h1, h2, _⟩ := h.held j e d l hdl
      have hfirst : ∀ x, (T j).Firsts x → some e ≠ x →
          (g.shared.dirents e).firstClus = (own (.cached e)).headD 0 := by
        intro x hx hne
        rw [h1, h2]
        exact hx e d l hne hdl
      have hshape := h.shape j
      unfold Token.Shape at hshape
      cases hph : (T j).phase with
      | steady =>
        rw [hph] at hshape
        exact .inl (hfirst none hshape.2 (fun h => nomatch h))
      | truncating e' freed =>
        rw [hph] at hshape
        by_cases hee : e' = e
        · subst hee
          exact .inr ⟨j, .inr ⟨freed, hph⟩⟩
        · exact .inl (hfirst (some e') hshape.2 fun h => hee (Option.some.inj h).symm)
      | fresh e' =>
        rw [hph] at hshape
        by_cases hee : e' = e
        · subst hee
          exact .inr ⟨j, .inl hph⟩
        · exact .inl (hfirst (some e') hshape.2.1 fun h => hee (Option.some.inj h).symm)
  idle i handles hi := by
    have ht := hidle i handles hi
    refine ⟨?_, ?_, fun e he => ⟨i, ?_⟩⟩
    · show (T i).phase = _
      rw [ht]
      rfl
    · rw [h.loose i, ht]
      rfl
    · rw [ht]
      exact he
  steady i hi := by
    have hshape := h.shape i
    unfold Token.Shape at hshape
    rw [show (T i).phase = .steady from hi] at hshape
    rw [h.loose i]
    exact hshape.1
  fresh i e hi := by
    have hshape := h.shape i
    unfold Token.Shape at hshape
    rw [show (T i).phase = .fresh e from hi] at hshape
    rw [h.loose i]
    exact hshape.1
  truncating i e freed hi := by
    have hshape := h.shape i
    unfold Token.Shape at hshape
    rw [show (T i).phase = .truncating e freed from hi] at hshape
    obtain ⟨⟨d, hd, hfirst⟩, _⟩ := hshape
    obtain ⟨h1, h2, h3⟩ := h.held i e d [] hd
    rw [h1, h2, h.loose i]
    exact ⟨rfl, h3, hfirst⟩

end Triples

/-- **The chains stay well formed and disjoint, and no cluster is lost**, as long as no
end mark above 2³¹ is met while a chain grows. -/
theorem chains_stay {fat : Fat} {ι : Type} [DecidableEq ι] {pid : ι → Nat} {s : State} {handles : ι → Ptr → Prop}
    {own : Owner ι → List Nat} {g : Config Label Stop State ι (Ptr → Prop)} (w : fat.Wf)
    (hmounted : Mounted fat s handles own) (hreach : Reach (chainClient fat pid) (Sound fat) ⟨s, fun i => .ret (handles i)⟩ g) :
    ∃ live own' phase, (∀ i e, handles i e → live e) ∧ WellCarved fat pid live (fun k => own (.other k)) g own' phase := by
  have h₀ : Covered (fun s T => ∃ own', Inv fat pid (fun e => ∃ i, handles i e) (fun k => own (.other k)) s T own')
      (Sound fat) (fun _ _ => True) IsPanic (fun l t => t = Token.idle l) ⟨s, fun i => .ret (handles i)⟩ :=
    ⟨_, ⟨own, hmounted.inv⟩, fun i => Triple.ret rfl⟩
  obtain ⟨T, ⟨own', hI⟩, hT⟩ := Reach.sound (M := chainClient fat pid)
    (by
      intro i l c t hc ht
      subst ht
      exact keeps_call w l c hc)
    (by
      intro s T i j l₁ l₂ l₁' l₂' hij hI hi hj hp
      obtain ⟨own', hI⟩ := hI
      obtain ⟨rfl, hsub, hsup⟩ := hp
      exact ⟨_, _, rfl, rfl, own', by rw [← hi, Function.update_eq_self]; exact hI.pass hi hj hsub hsup⟩)
    h₀ hreach
  refine ⟨_, own', _, ?_, hI.wellCarved ?_⟩
  · intro i e he
    exact hI.live e ⟨i, he⟩
  · intro i l hl
    exact Covered.idle hT hl

/-! ### An end mark above 2³¹ -/

namespace HighEndFat

/-- One sector a cluster, one FAT of four sectors, 200 data clusters. -/
def volume : Fat :=
  { bpb := ⟨512, 1, 1, 1, 205, 4, 2⟩
    firstDataSec := 5
    dataSecCnt := 200
    dataClusCnt := 200
    bytsPerClus := 512 }

/-- Cluster 2 is the whole of a file of 512 bytes; its FAT entry is 0xffffffff. -/
def state : State where
  disk := setFat volume 2 0xffffffff fun _ _ => 0
  dirents := Function.update (fun _ => Dirent.zero) (.entry 0)
    { Dirent.zero with firstClus := 2, fileSize := 512, curClus := 2, valid := 1, ref := 1 }
  lru := List.finRange _

def own : Owner Unit → List Nat := Function.update (fun _ => []) (.cached (.entry 0)) [2]

/-- The byte 5 is written behind the file. -/
def call : ChainCall := .ewrite (.entry 0) (.kernel fun _ => 5) 512 1

/-- The byte 5 is written over the first of the file. -/
def inside : ChainCall := .ewrite (.entry 0) (.kernel fun _ => 5) 0 1

theorem wf : volume.Wf := by
  constructor <;> decide

theorem fatEntry_state (c : Nat) : fatEntry volume state.disk c = if c = 2 then 0xffffffff else 0 :=
  fatEntry_fatWrite (fun _ _ => 0) (by decide)

theorem mem_own {k : Owner Unit} {c : Nat} (h : c ∈ own k) : k = .cached (.entry 0) ∧ c = 2 := by
  by_cases hk : k = .cached (.entry 0)
  · rw [hk, own, Function.update_self] at h
    exact ⟨hk, List.mem_singleton.mp h⟩
  · rw [own, Function.update_of_ne hk] at h
    exact absurd h List.not_mem_nil

theorem mounted : Mounted volume state (fun _ e => e = .entry 0) own where
  carved := by
    refine ⟨fun k => ?_, fun k c hc => ?_, fun k => ?_, fun k k' hne c hc hc' => ?_, fun c _ hz => ?_⟩
    · by_cases hk : k = .cached (.entry 0)
      · rw [hk, own, Function.update_self]
        refine .single ?_
        rw [fatEntry_state, if_pos rfl]
        decide
      · rw [own, Function.update_of_ne hk]
        exact .nil
    · rw [(mem_own hc).2]
      decide
    · by_cases hk : k = .cached (.entry 0)
      · rw [hk, own, Function.update_self]
        exact List.nodup_singleton 2
      · rw [own, Function.update_of_ne hk]
        exact List.nodup_nil
    · exact hne ((mem_own hc).1.trans (mem_own hc').1.symm)
    · refine ⟨.cached (.entry 0), ?_⟩
      have hc : c = 2 := by
        by_contra h
        rw [fatEntry_state, if_neg h] at hz
        exact hz rfl
      rw [hc, own, Function.update_self]
      exact List.mem_singleton_self 2
  process _ := rfl
  cached e c hc := by
    obtain ⟨hk, rfl⟩ := mem_own (List.mem_of_mem_head? hc)
    rw [Owner.cached.inj hk]
    rfl
  retired _ := rfl
  unlocked e := by
    by_cases he : e = .entry 0
    · rw [he]
      rfl
    · show (Function.update (fun _ => Dirent.zero) _ _ e).lock = none
      rw [Function.update_of_ne he]
      rfl
  ready i e he := by
    subst he
    exact ⟨⟨rfl, fun _ => rfl⟩, fun h => absurd rfl h⟩

end HighEndFat

/-- Inside the file the end mark is not met. -/
theorem chains_stay_inside : ∃ g live own' phase,
    Reach (chainClient HighEndFat.volume fun _ : Unit => 1) (Sound HighEndFat.volume)
      ⟨HighEndFat.state, fun _ => .ret (· = .entry 0)⟩ g ∧ g.shared.disk 5 0 = 5 ∧ live (.entry 0) ∧
      WellCarved HighEndFat.volume (fun _ => 1) live (fun k => HighEndFat.own (.other k)) g own' phase := by
  have hrun : ((HighEndFat.inside.body HighEndFat.volume 1 (· = .entry 0)).run HighEndFat.state).state?.map
      (fun s => s.disk 5 0) = some 5 := by
    decide +kernel
  obtain ⟨s', hs', hbyte⟩ := Option.map_eq_some_iff.mp hrun
  obtain ⟨handles, hdone⟩ := Outcome.state?_eq_some.mp hs'
  have hreach : Reach (chainClient HighEndFat.volume fun _ : Unit => 1) (Sound HighEndFat.volume)
      ⟨HighEndFat.state, fun _ => .ret (· = .entry 0)⟩ ⟨s', fun _ => .ret handles⟩ := by
    refine Reach.callOn .refl () rfl (c := HighEndFat.inside) rfl hdone ?_ ?_
    · decide +kernel
    · exact funext fun _ => rfl
  obtain ⟨live, own', phase, hlive, hwell⟩ := chains_stay HighEndFat.wf HighEndFat.mounted hreach
  exact ⟨_, live, own', phase, hreach, hbyte, hlive () _ rfl, hwell⟩

/-- The byte goes to a sector of the FAT. -/
theorem not_chainsStay_allocs : ¬ ChainsStay Allocs := by
  intro h
  have hrun : ((HighEndFat.call.body HighEndFat.volume 1 (· = .entry 0)).run HighEndFat.state).state?.map
      (fun s => (fatEntry HighEndFat.volume s.disk 128, fatEntry HighEndFat.volume s.disk 5)) = some (5, 0) := by
    decide +kernel
  obtain ⟨s', hs', hfat⟩ := Option.map_eq_some_iff.mp hrun
  obtain ⟨handles, hdone⟩ := Outcome.state?_eq_some.mp hs'
  have hreach : Reach (chainClient HighEndFat.volume fun _ : Unit => 1) (Allocs HighEndFat.volume)
      ⟨HighEndFat.state, fun _ => .ret (· = .entry 0)⟩ ⟨s', fun _ => .ret handles⟩ := by
    refine Reach.callOn .refl () rfl (c := HighEndFat.call) rfl hdone ?_ ?_
    · decide +kernel
    · exact funext fun _ => rfl
  obtain ⟨live, own', phase, _, hwell⟩ := h _ Unit _ _ _ _ _ _ HighEndFat.wf HighEndFat.mounted hreach
  obtain ⟨h128, h5⟩ : fatEntry HighEndFat.volume s'.disk 128 = 5 ∧ fatEntry HighEndFat.volume s'.disk 5 = 0 :=
    ⟨congrArg Prod.fst hfat, congrArg Prod.snd hfat⟩
  obtain ⟨k, hk⟩ := hwell.carved.cover 128 (by decide) (by rw [h128]; decide)
  obtain ⟨j, hj⟩ := List.getElem?_of_mem hk
  cases hnext : (own' k)[j + 1]? with
  | none =>
    have hend := (hwell.carved.linked k).last j 128 hj hnext
    rw [h128] at hend
    revert hend
    decide
  | some d =>
    have hd := (hwell.carved.linked k).step j 128 d hj hnext
    rw [h128] at hd
    subst hd
    exact hwell.carved.next_ne_free not_inRange_zero not_eoc_zero (List.mem_of_getElem? hnext) h5

end Farron
