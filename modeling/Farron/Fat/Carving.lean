import Farron.Chains.Partition
import Farron.Fat.Cache
import Farron.Fat.Chain
import Farron.Resumption.Interleave
import Mathlib.Order.Interval.Finset.Nat

/-! The clusters of a volume and who owns them, while processes work on their own entries.

An owner of a chain is a cached entry, a process that has taken a cluster it has
not linked yet or is truncating, a file that was not cached at first, or a file that
has lost its slot since. Nothing else is: the chain of an entry starts at the entry's
first cluster, and the chain of a file without a slot at the one its entry had, so what
nobody reaches has no owner to go to. A process's token
says which entries it may open, which it has locked, with their dirents and
chains, and what it owns itself (`Token`). `Inv` ties the tokens to the disk and the
dirents; `Inv.update` is what a section has to keep, and the triples below are the
sections of the cluster functions. -/
namespace Farron
open Resumption Chains
variable {fat : Fat} {ι : Type} [DecidableEq ι]

inductive Owner (ι : Type)
  | cached (e : Ptr)
  | process (i : ι)
  | other (k : Nat)
  /-- The file that was the `n`th to lose its slot. -/
  | retired (n : Nat)
  deriving DecidableEq

namespace Owner
omit [DecidableEq ι]

theorem cached_ne_process (e : Ptr) (i : ι) : Owner.cached e ≠ .process i := fun h => nomatch h
theorem other_ne_process (k : Nat) (i : ι) : Owner.other k ≠ .process i := fun h => nomatch h
theorem other_ne_cached (k : Nat) (e : Ptr) : (Owner.other k : Owner ι) ≠ .cached e := fun h => nomatch h
theorem retired_ne_process (n : Nat) (i : ι) : Owner.retired n ≠ .process i := fun h => nomatch h
theorem retired_ne_cached (n : Nat) (e : Ptr) : (Owner.retired n : Owner ι) ≠ .cached e := fun h => nomatch h
theorem retired_ne_other (n k : Nat) : (Owner.retired n : Owner ι) ≠ .other k := fun h => nomatch h

end Owner

/-- Every cluster in use is on the chain of one owner. -/
abbrev Carved (fat : Fat) (disk : Disk) (own : Owner ι → List Nat) : Prop :=
  Partition (fatEntry fat disk) (fat32Eoc ≤ ·) 0 fat.InRange own

/-- What a process is doing to the chain of an entry it has locked. -/
inductive Phase
  | steady
  /-- It frees the entry's clusters; these it has freed. -/
  | truncating (e : Ptr) (freed : List Nat)
  /-- It has locked a slot that is to become another file. -/
  | fresh (e : Ptr)

structure Token where
  handles : Ptr → Prop
  held : Ptr → Option (Dirent × List Nat)
  loose : List Nat
  phase : Phase

namespace Token

/-- The token of a process that is in no call. -/
def idle (handles : Ptr → Prop) : Token := ⟨handles, fun _ => none, [], .steady⟩

def hold (t : Token) (e : Ptr) (d : Dirent) (l : List Nat) : Token :=
  { t with held := Function.update t.held e (some (d, l)) }

/-- The entries but `e` start with the first cluster of their chains. -/
def Firsts (t : Token) (except : Option Ptr) : Prop :=
  ∀ e d l, some e ≠ except → t.held e = some (d, l) → d.firstClus = l.headD 0

/-- What a process owns in each phase. -/
def Shape (t : Token) : Prop :=
  match t.phase with
  | .steady => t.loose.length ≤ 1 ∧ t.Firsts none
  | .truncating e freed => (∃ d, t.held e = some (d, []) ∧ d.firstClus = (freed ++ t.loose).headD 0) ∧
      t.Firsts (some e)
  | .fresh e => t.loose = [] ∧ t.Firsts (some e) ∧ ∀ d l c, t.held e = some (d, l) → l.head? = some c → d.firstClus = c

@[simp] theorem hold_held_same (t : Token) (e : Ptr) (d : Dirent) (l : List Nat) :
    (t.hold e d l).held e = some (d, l) := Function.update_self ..
theorem hold_held_ne (t : Token) {e e' : Ptr} (d : Dirent) (l : List Nat) (h : e' ≠ e) :
    (t.hold e d l).held e' = t.held e' := Function.update_of_ne h ..
@[simp] theorem hold_handles (t : Token) (e : Ptr) (d : Dirent) (l : List Nat) :
    (t.hold e d l).handles = t.handles := rfl
@[simp] theorem hold_loose (t : Token) (e : Ptr) (d : Dirent) (l : List Nat) :
    (t.hold e d l).loose = t.loose := rfl
@[simp] theorem hold_phase (t : Token) (e : Ptr) (d : Dirent) (l : List Nat) :
    (t.hold e d l).phase = t.phase := rfl
@[simp] theorem hold_hold (t : Token) (e : Ptr) (d d' : Dirent) (l l' : List Nat) :
    (t.hold e d l).hold e d' l' = t.hold e d' l' := by
  unfold hold
  simp only [Function.update_idem]

/-- The token after `e` has been unlocked. -/
def drop (t : Token) (e : Ptr) (handles : Ptr → Prop) : Token :=
  { t with held := Function.update t.held e none, handles := handles }

@[simp] theorem drop_held_same (t : Token) (e : Ptr) (h : Ptr → Prop) : (t.drop e h).held e = none :=
  Function.update_self ..
theorem drop_held_ne (t : Token) {e e' : Ptr} (h : Ptr → Prop) (hne : e' ≠ e) :
    (t.drop e h).held e' = t.held e' := Function.update_of_ne hne ..

theorem hold_drop (t : Token) (e : Ptr) (d : Dirent) (l : List Nat) (h : Ptr → Prop)
    (he : t.held e = none) : (t.hold e d l).drop e h = { t with handles := h } := by
  unfold hold drop
  rw [Function.update_idem, ← he, Function.update_eq_self]

theorem hold_self {t : Token} {e : Ptr} {d : Dirent} {l : List Nat} (h : t.held e = some (d, l)) :
    t.hold e d l = t := by
  unfold hold
  rw [← h, Function.update_eq_self]

/-- Changing what is held keeps what is not. -/
theorem hold_held_none {t : Token} {e : Ptr} {x : Dirent × List Nat} (h : t.held e = some x) {d : Dirent}
    {l : List Nat} (e' : Ptr) : (t.hold e d l).held e' = none ↔ t.held e' = none := by
  by_cases hne : e' = e
  · rw [hne, hold_held_same, h]
    exact ⟨fun hc => (nomatch hc), fun hc => (nomatch hc)⟩
  · rw [hold_held_ne t d l hne]

/-- Replacing a held entry by one that starts with its chain's first cluster. -/
theorem Firsts.hold {t : Token} {except : Option Ptr} (h : t.Firsts except) {e : Ptr} {d : Dirent} {l : List Nat}
    (hd : some e ≠ except → d.firstClus = l.headD 0) : (t.hold e d l).Firsts except := by
  intro e' d' l' hne he
  by_cases h' : e' = e
  · subst h'
    rw [hold_held_same] at he
    cases he
    exact hd hne
  · rw [hold_held_ne t d l h'] at he
    exact h e' d' l' hne he

/-- In every phase a chain that is not empty starts at its entry's first cluster. -/
theorem Shape.starts {t : Token} (h : t.Shape) {e : Ptr} {d : Dirent} {l : List Nat} (he : t.held e = some (d, l)) {c : Nat}
    (hc : l.head? = some c) : d.firstClus = c := by
  have hfirsts : ∀ x, t.Firsts x → some e ≠ x → d.firstClus = c := by
    intro x hx hne
    rw [hx e d l hne he, List.headD_eq_head?_getD, hc]
    rfl
  unfold Shape at h
  cases hph : t.phase with
  | steady =>
    rw [hph] at h
    exact hfirsts none h.2 (Option.some_ne_none e)
  | truncating e' freed =>
    rw [hph] at h
    obtain ⟨⟨d', hd', -⟩, hx⟩ := h
    by_cases hee : e = e'
    · subst hee
      rw [he] at hd'
      cases hd'
      cases hc
    · exact hfirsts (some e') hx fun h => hee (Option.some.inj h)
  | fresh e' =>
    rw [hph] at h
    by_cases hee : e = e'
    · subst hee
      exact h.2.2 d l c he hc
    · exact hfirsts (some e') h.2.1 fun h => hee (Option.some.inj h)

/-- In no phase of its own. -/
structure Calm (t : Token) : Prop where
  phase : t.phase = .steady
  loose : t.loose = []
  firsts : t.Firsts none

theorem Calm.shape {t : Token} (h : t.Calm) : t.Shape := by
  unfold Shape
  rw [h.phase, h.loose]
  exact ⟨Nat.zero_le _, h.firsts⟩

/-- The entry `e` is locked, its chain is `l`, and its cursor is on it. -/
structure Holding (fat : Fat) (t : Token) (e : Ptr) (d : Dirent) (l : List Nat) : Prop where
  held : t.held e = some (d, l)
  holds : Holds d l
  inRange : ∀ c ∈ l, fat.InRange c

theorem Holding.hold {t : Token} {e : Ptr} {d d' : Dirent} {l : List Nat} (h : t.Holding fat e d l)
    (hd : Holds d' l) : (t.hold e d' l).Holding fat e d' l :=
  ⟨hold_held_same .., hd, h.inRange⟩

/-- What a process holds besides `e` it still holds. -/
theorem Holding.other {t : Token} {e e' : Ptr} {d d' : Dirent} {l l' : List Nat}
    (h : t.Holding fat e d l) (hne : e ≠ e') : (t.hold e' d' l').Holding fat e d l :=
  ⟨by rw [hold_held_ne t d' l' hne]; exact h.held, h.holds, h.inRange⟩

theorem Calm.hold {t : Token} (h : t.Calm) {e : Ptr} {d : Dirent} {l : List Nat} (hd : Holds d l) :
    (t.hold e d l).Calm :=
  ⟨h.phase, h.loose, h.firsts.hold fun _ => hd.first⟩

end Token

/-- An entry that may be locked by whoever has a handle on it. -/
structure Ready (d : Dirent) (l : List Nat) : Prop where
  holds : Holds d l
  directory : d.attr &&& attrDirectory ≠ 0 → d.valid = 1 → l ≠ []

structure Inv (fat : Fat) (pid : ι → Nat) (live : Ptr → Prop) (own₀ : Nat → List Nat) (s : State)
    (T : ι → Token) (own : Owner ι → List Nat) : Prop where
  carved : Carved fat s.disk own
  loose : ∀ i, own (.process i) = (T i).loose
  held : ∀ i e d l, (T i).held e = some (d, l) →
    s.dirents e = d ∧ own (.cached e) = l ∧ d.lock = some (pid i)
  once : ∀ i j e, (T i).held e ≠ none → (T j).held e ≠ none → i = j
  locked : ∀ e, (s.dirents e).lock ≠ none → ∃ i, (T i).held e ≠ none
  ready : ∀ i e, (T i).handles e → (s.dirents e).lock = none → Ready (s.dirents e) (own (.cached e))
  shape : ∀ i, (T i).Shape
  live : ∀ e, live e → ∃ i, (T i).handles e
  others : ∀ k, own (.other k) = own₀ k
  cached : ∀ e c, (own (.cached e)).head? = some c → (s.dirents e).firstClus = c
  retired : ∀ n c, (own (.retired n)).head? = some c → s.retired[n]? = some c

theorem not_inRange_zero : ¬ fat.InRange 0 := fun h => absurd h.1 (by decide)

theorem not_eoc_zero : ¬ fat32Eoc ≤ 0 := by decide

section Update
variable {pid : ι → Nat} {live : Ptr → Prop} {own₀ : Nat → List Nat} {s s' : State} {T : ι → Token}
  {own own' : Owner ι → List Nat}

/-- The files that are not cached keep their chains, and one that has lost its slot is noted. -/
structure Aside (s s' : State) (own own' : Owner ι → List Nat) : Prop where
  other : ∀ k, own' (.other k) = own (.other k)
  grown : s.retired <+: s'.retired
  retired : ∀ n, own' (.retired n) = own (.retired n) ∨ ∀ c, (own' (.retired n)).head? = some c → s'.retired[n]? = some c

omit [DecidableEq ι] in
/-- No entry loses its slot. -/
theorem Aside.same (hretired : s'.retired = s.retired)
    (hown : ∀ k, (∀ i, k ≠ .process i) → (∀ e, k ≠ .cached e) → own' k = own k) : Aside s s' own own' :=
  ⟨fun k => hown _ (Owner.other_ne_process k) (Owner.other_ne_cached k), by rw [hretired],
    fun n => .inl (hown _ (Owner.retired_ne_process n) (Owner.retired_ne_cached n))⟩

/-- What a section of process `i` has to keep. -/
structure Update (fat : Fat) (pid : Nat) (i : ι) (s s' : State) (own own' : Owner ι → List Nat) (t t' : Token) :
    Prop where
  carved : Carved fat s'.disk own'
  process : ∀ j, j ≠ i → own' (.process j) = own (.process j)
  loose : own' (.process i) = t'.loose
  aside : Aside s s' own own'
  alone : ∀ e, t.held e = none → t'.held e = none →
    s'.dirents e = s.dirents e ∧ own' (.cached e) = own (.cached e)
  held : ∀ e d l, t'.held e = some (d, l) → s'.dirents e = d ∧ own' (.cached e) = l ∧ d.lock = some pid
  acquired : ∀ e, t.held e = none → t'.held e ≠ none → (s.dirents e).lock = none
  released : ∀ e, t.held e ≠ none → t'.held e = none →
    (s'.dirents e).lock = none ∧ Ready (s'.dirents e) (own' (.cached e))
  handles : ∀ e, t.handles e → t'.handles e
  gained : ∀ e, t'.handles e → t.handles e ∨ t.held e ≠ none
  shape : t'.Shape

omit [DecidableEq ι] in
/-- A section that locks and unlocks nothing. -/
theorem Update.steady {pid : Nat} {i : ι} {t t' : Token}
    (hsame : ∀ e, t'.held e = none ↔ t.held e = none) (hhandles : t'.handles = t.handles)
    (hcarved : Carved fat s'.disk own')
    (hprocess : ∀ j, j ≠ i → own' (.process j) = own (.process j)) (hloose : own' (.process i) = t'.loose)
    (haside : Aside s s' own own')
    (halone : ∀ e, t.held e = none → s'.dirents e = s.dirents e ∧ own' (.cached e) = own (.cached e))
    (hheld : ∀ e d l, t'.held e = some (d, l) →
      s'.dirents e = d ∧ own' (.cached e) = l ∧ d.lock = some pid)
    (hshape : t'.Shape) : Update fat pid i s s' own own' t t' where
  carved := hcarved
  process := hprocess
  loose := hloose
  aside := haside
  alone e he _ := halone e he
  held := hheld
  acquired e he hne := absurd ((hsame e).mpr he) hne
  released e hne he := absurd ((hsame e).mp he) hne
  handles e he := by
    rw [hhandles]
    exact he
  gained e he := by
    rw [hhandles] at he
    exact .inl he
  shape := hshape

section Keep
variable (h : Inv fat pid live own₀ s T own) {i : ι} {t' : Token} (u : Update fat (pid i) i s s' own own' (T i) t')
include h u

omit [DecidableEq ι] in
/-- Entries that others hold are not touched. -/
theorem Inv.untouched {j : ι} {e : Ptr} (hj : j ≠ i) (he : (T j).held e ≠ none) : (T i).held e = none ∧ t'.held e = none := by
  have hnone : (T i).held e = none := by
    by_contra hne
    exact hj (h.once j i e he hne)
  refine ⟨hnone, ?_⟩
  by_contra hne
  have hlock := u.acquired e hnone hne
  obtain ⟨x, hx⟩ := Option.ne_none_iff_exists'.mp he
  obtain ⟨hd, -, hpid⟩ := h.held j e x.1 x.2 hx
  rw [hd, hpid] at hlock
  cases hlock

theorem Inv.held_update (j : ι) (e : Ptr) (d : Dirent) (l : List Nat) (he : (Function.update T i t' j).held e = some (d, l)) :
    s'.dirents e = d ∧ own' (.cached e) = l ∧ d.lock = some (pid j) := by
  by_cases hj : j = i
  · subst hj
    rw [Function.update_self] at he
    exact u.held e d l he
  · rw [Function.update_of_ne hj] at he
    obtain ⟨hi, hi'⟩ := h.untouched u hj (by rw [he]; exact Option.some_ne_none _)
    obtain ⟨hd, hown⟩ := u.alone e hi hi'
    rw [hd, hown]
    exact h.held j e d l he

theorem Inv.once_update (j k : ι) (e : Ptr) (hj : (Function.update T i t' j).held e ≠ none)
    (hk : (Function.update T i t' k).held e ≠ none) : j = k := by
  by_cases hji : j = i
  · by_cases hki : k = i
    · exact hji.trans hki.symm
    · rw [Function.update_of_ne hki] at hk
      rw [hji, Function.update_self] at hj
      exact absurd (h.untouched u hki hk).2 hj
  · rw [Function.update_of_ne hji] at hj
    by_cases hki : k = i
    · rw [hki, Function.update_self] at hk
      exact absurd (h.untouched u hji hj).2 hk
    · rw [Function.update_of_ne hki] at hk
      exact h.once j k e hj hk

theorem Inv.locked_update (e : Ptr) (he : (s'.dirents e).lock ≠ none) : ∃ j, (Function.update T i t' j).held e ≠ none := by
  by_cases hheld : t'.held e = none
  · by_cases hi : (T i).held e = none
    · rw [(u.alone e hi hheld).1] at he
      obtain ⟨j, hj⟩ := h.locked e he
      have hji : j ≠ i := by
        rintro rfl
        exact hj hi
      refine ⟨j, ?_⟩
      rw [Function.update_of_ne hji]
      exact hj
    · exact absurd (u.released e hi hheld).1 he
  · refine ⟨i, ?_⟩
    rw [Function.update_self]
    exact hheld

omit [DecidableEq ι] in
/-- An entry that is not locked is ready for whoever has a handle on it, or has just given it up. -/
theorem Inv.ready_of {e : Ptr} (he : (s'.dirents e).lock = none) (hk : (∃ k, (T k).handles e) ∨ (T i).held e ≠ none) :
    Ready (s'.dirents e) (own' (.cached e)) := by
  have hheld : t'.held e = none := by
    by_contra hne
    obtain ⟨x, hx⟩ := Option.ne_none_iff_exists'.mp hne
    obtain ⟨hd, -, hpid⟩ := u.held e x.1 x.2 hx
    rw [hd, hpid] at he
    cases he
  by_cases hi : (T i).held e = none
  · obtain ⟨hd, hown⟩ := u.alone e hi hheld
    rw [hd] at he
    rw [hd, hown]
    rcases hk with ⟨k, hk⟩ | hk
    · exact h.ready k e hk he
    · exact absurd hi hk
  · exact (u.released e hi hheld).2

theorem Inv.ready_update (j : ι) (e : Ptr) (hj : (Function.update T i t' j).handles e) (he : (s'.dirents e).lock = none) :
    Ready (s'.dirents e) (own' (.cached e)) := by
  by_cases hji : j = i
  · rw [hji, Function.update_self] at hj
    exact h.ready_of u he ((u.gained e hj).imp (fun hg => ⟨i, hg⟩) id)
  · rw [Function.update_of_ne hji] at hj
    exact h.ready_of u he (.inl ⟨j, hj⟩)

theorem Inv.live_update (e : Ptr) (he : live e) : ∃ j, (Function.update T i t' j).handles e := by
  obtain ⟨j, hj⟩ := h.live e he
  refine ⟨j, ?_⟩
  by_cases hji : j = i
  · rw [hji, Function.update_self]
    exact u.handles e (hji ▸ hj)
  · rw [Function.update_of_ne hji]
    exact hj

omit [DecidableEq ι] in
theorem Inv.cached_update (e : Ptr) (c : Nat) (hc : (own' (.cached e)).head? = some c) : (s'.dirents e).firstClus = c := by
  by_cases hheld : t'.held e = none
  · by_cases hi : (T i).held e = none
    · obtain ⟨hd, hown⟩ := u.alone e hi hheld
      rw [hown] at hc
      rw [hd]
      exact h.cached e c hc
    · rw [(u.released e hi hheld).2.holds.first, List.headD_eq_head?_getD, hc]
      rfl
  · obtain ⟨x, hx⟩ := Option.ne_none_iff_exists'.mp hheld
    obtain ⟨hd, hown, -⟩ := u.held e x.1 x.2 hx
    rw [hown] at hc
    rw [hd]
    exact u.shape.starts hx hc

omit [DecidableEq ι] in
theorem Inv.retired_update (n c : Nat) (hc : (own' (.retired n)).head? = some c) : s'.retired[n]? = some c := by
  rcases u.aside.retired n with hsame | hnoted
  · rw [hsame] at hc
    obtain ⟨hlt, hget⟩ := List.getElem?_eq_some_iff.mp (h.retired n c hc)
    rw [u.aside.grown.getElem hlt] at hget
    exact List.getElem?_eq_some_iff.mpr ⟨_, hget⟩
  · exact hnoted c hc

theorem Inv.update : Inv fat pid live own₀ s' (Function.update T i t') own' where
  carved := u.carved
  loose j := by
    by_cases hj : j = i
    · subst hj
      rw [Function.update_self]
      exact u.loose
    · rw [Function.update_of_ne hj, u.process j hj]
      exact h.loose j
  held := h.held_update u
  once := h.once_update u
  locked := h.locked_update u
  ready := h.ready_update u
  shape j := by
    by_cases hj : j = i
    · subst hj
      rw [Function.update_self]
      exact u.shape
    · rw [Function.update_of_ne hj]
      exact h.shape j
  live := h.live_update u
  others k := (u.aside.other k).trans (h.others k)
  cached := h.cached_update u
  retired := h.retired_update u

end Keep

end Update

/-! ### Sections -/

/-- The kernel stops only with a panic of its own. -/
def IsPanic : Stop → Prop
  | .panic _ => True
  | _ => False

/-- A triple over `Inv`. -/
abbrev Keeps (fat : Fat) (pid : ι → Nat) (live : Ptr → Prop) (own₀ : Nat → List Nat) (i : ι) {α : Type}
    (p : Fs α) (t : Token) (Q : α → Token → Prop) : Prop :=
  Triple (fun s T => ∃ own, Inv fat pid live own₀ s T own) (Sound fat) (fun _ _ => True) IsPanic i p t Q

section Sections
variable {pid : ι → Nat} {live : Ptr → Prop} {own₀ : Nat → List Nat} {i : ι} {t : Token} {e : Ptr}
  {d : Dirent} {l : List Nat}

theorem keeps_act {α : Type} {lab : Label} {f : State → Option State} {k : State → Fs α}
    {Q : α → Token → Prop}
    (h : ∀ s T own s', Inv fat pid live own₀ s T own → T i = t → Sound fat lab s → f s = some s' →
      ∃ t' own', Update fat (pid i) i s s' own own' t t' ∧ Keeps fat pid live own₀ i (k s) t' Q) :
    Keeps fat pid live own₀ i (.act lab f k) t Q := by
  intro s T s' hI ht hC hf
  obtain ⟨own, hI⟩ := hI
  obtain ⟨t', own', hu, hk⟩ := h s T own s' hI ht hC hf
  subst ht
  exact ⟨trivial, t', ⟨own', hI.update hu⟩, hk⟩

/-- A section that only looks. -/
theorem keeps_look {α : Type} {lab : Label} {k : State → Fs α} {Q : α → Token → Prop}
    (h : ∀ s T own, Inv fat pid live own₀ s T own → T i = t → Sound fat lab s →
      Keeps fat pid live own₀ i (k s) t Q) : Keeps fat pid live own₀ i (.act lab some k) t Q := by
  intro s T s' hI ht hC hf
  cases hf
  obtain ⟨own, hI'⟩ := hI
  refine ⟨trivial, t, ?_, h s T own hI' ht hC⟩
  rw [← ht, Function.update_eq_self]
  exact ⟨own, hI'⟩

/-- A held dirent is what the token says. -/
theorem keeps_dirent (ht : t.held e = some (d, l)) :
    Keeps fat pid live own₀ i (dirent e) t fun d' t' => d' = d ∧ t' = t := by
  apply keeps_look
  intro s T own hI hT _
  refine ⟨?_, rfl⟩
  rw [← hT] at ht
  exact (hI.held i e d l ht).1

theorem keeps_dirent_any : Keeps fat pid live own₀ i (dirent e) t fun _ t' => t' = t := by
  apply keeps_look
  intro _ _ _ _ _ _
  rfl

/-- The FAT entries of the clusters and the dirents are as they were. -/
def SameFat (fat : Fat) (s s' : State) : Prop :=
  s'.dirents = s.dirents ∧ s'.retired = s.retired ∧ ∀ c, fat.InRange c → fatEntry fat s'.disk c = fatEntry fat s.disk c

omit [DecidableEq ι] in
theorem Inv.sameFat {s s' : State} {T : ι → Token} {own : Owner ι → List Nat}
    (h : Inv fat pid live own₀ s T own) (hs : SameFat fat s s') : Inv fat pid live own₀ s' T own where
  carved := h.carved.congr hs.2.2
  loose := h.loose
  held := by
    rw [hs.1]
    exact h.held
  once := h.once
  locked := by
    rw [hs.1]
    exact h.locked
  ready := by
    rw [hs.1]
    exact h.ready
  shape := h.shape
  live := h.live
  others := h.others
  cached := by
    rw [hs.1]
    exact h.cached
  retired := by
    rw [hs.2.1]
    exact h.retired

/-- A program that touches neither dirents nor the FAT. -/
theorem keeps_within {α : Type} {p : Fs α} (hp : p.Within (fun _ => SameFat fat) IsPanic) :
    Keeps fat pid live own₀ i p t fun _ t' => t' = t := by
  apply Triple.within _ hp
  intro _ s s' T hs hI
  obtain ⟨own, hI⟩ := hI
  exact ⟨trivial, own, hI.sameFat hs⟩

/-- The section changes the dirent of `e`, which the process holds. -/
theorem keeps_assign {f : Dirent → Dirent} (ht : t.held e = some (d, l)) (hlock : (f d).lock = d.lock)
    (hshape : (t.hold e (f d) l).Shape) :
    Keeps fat pid live own₀ i (assign e f) t fun _ t' => t' = t.hold e (f d) l := by
  apply keeps_act
  intro s T own s' hI hT _ hf
  cases hf
  subst hT
  obtain ⟨h1, h2, h3⟩ := hI.held i e d l ht
  refine ⟨(T i).hold e (f d) l, own, ?_, rfl⟩
  apply Update.steady
  · exact Token.hold_held_none ht
  · rfl
  · exact hI.carved
  · exact fun _ _ => rfl
  · exact hI.loose i
  · exact .same rfl fun _ _ _ => rfl
  · intro e' he'
    have hne : e' ≠ e := by
      rintro rfl
      rw [ht] at he'
      cases he'
    rw [State.setDirent_ne _ _ _ _ hne]
    exact ⟨rfl, rfl⟩
  · intro e' d' l' he'
    by_cases hne : e' = e
    · subst hne
      rw [Token.hold_held_same] at he'
      cases he'
      rw [State.setDirent_same, h1]
      exact ⟨rfl, h2, hlock.trans h3⟩
    · rw [Token.hold_held_ne _ _ _ hne] at he'
      rw [State.setDirent_ne _ _ _ _ hne]
      exact hI.held i e' d' l' he'
  · exact hshape

/-! ### Sections on the FAT -/

variable (w : fat.Wf)
include w

/-- Reading the entry of a cluster of a chain that nobody else changes. -/
theorem keeps_readFatAt (lab : Label) {L : List Nat} {j c : Nat} (hc : L[j]? = some c)
    (hr : fat.InRange c)
    (hL : ∀ s T own, Inv fat pid live own₀ s T own → T i = t → ∃ k, own k = L) :
    Keeps fat pid live own₀ i (readFatAt fat lab c) t fun v t' => t' = t ∧
      (∀ c', L[j + 1]? = some c' → v = c') ∧ (L[j + 1]? = none → fat32Eoc ≤ v) ∧
      ∃ s, v = fatEntry fat s.disk c ∧ Sound fat lab s := by
  have h1 : ¬ c ≥ fat32Eoc := by have := w.inRange_lt hr; omega
  have hu : u32 (fat.dataClusCnt + 1) = fat.dataClusCnt + 1 :=
    u32_of_lt (by have := w.clusters_lt; omega)
  have h2 : ¬ c > u32 (fat.dataClusCnt + 1) := by have := hr.2; omega
  rw [readFatAt, if_neg h1, if_neg h2]
  apply keeps_look
  intro s T own hI hT hC
  obtain ⟨k, hk⟩ := hL s T own hI hT
  have hlinked : Linked (fatEntry fat s.disk) (fat32Eoc ≤ ·) L := hk ▸ hI.carved.linked k
  have hv : word32 (s.disk (fatSecOfClus fat c 1)) (fatOffsetOfClus fat c) = fatEntry fat s.disk c := by
    rw [(w.fatSec hr.2).1, w.fatOffset hr.2]
    rfl
  refine ⟨rfl, fun c' hc' => ?_, fun hn => ?_, s, hv, hC⟩
  · rw [hv]
    exact hlinked.step j c c' hc hc'
  · rw [hv]
    exact hlinked.last j c hc hn

omit w [DecidableEq ι] in
/-- The chain of a held entry is in nobody else's reach. -/
theorem held_owned {e : Ptr} {d : Dirent} {l : List Nat} (ht : t.held e = some (d, l)) (s : State)
    (T : ι → Token) (own : Owner ι → List Nat) (hI : Inv fat pid live own₀ s T own) (hT : T i = t) :
    ∃ k, own k = l := by
  subst hT
  exact ⟨.cached e, (hI.held i e d l ht).2.1⟩

omit w [DecidableEq ι] in
theorem loose_owned (s : State) (T : ι → Token) (own : Owner ι → List Nat)
    (hI : Inv fat pid live own₀ s T own) (hT : T i = t) : ∃ k, own k = t.loose := by
  subst hT
  exact ⟨.process i, hI.loose i⟩

omit w [DecidableEq ι] in
/-- A section that changes FAT entries and what the process owns by itself, and no
dirent. -/
theorem Update.fatOnly {s s' : State} {T : ι → Token} {own own' : Owner ι → List Nat}
    (hI : Inv fat pid live own₀ s T own) {t' : Token} (hdirents : s'.dirents = s.dirents)
    (hretired : s'.retired = s.retired) (hcarved : Carved fat s'.disk own') (hown : ∀ k, k ≠ .process i → own' k = own k)
    (hloose : own' (.process i) = t'.loose) (hheld : t'.held = (T i).held)
    (hhandles : t'.handles = (T i).handles) (hshape : t'.Shape) :
    Update fat (pid i) i s s' own own' (T i) t' := by
  apply Update.steady
  · intro e
    rw [hheld]
  · exact hhandles
  · exact hcarved
  · intro j hj
    exact hown _ fun he => hj (Owner.process.inj he)
  · exact hloose
  · exact .same hretired fun k hk _ => hown k (hk i)
  · intro e _
    rw [hdirents]
    exact ⟨rfl, hown _ (fun he => nomatch he)⟩
  · intro e d l he
    rw [hheld] at he
    rw [hdirents, hown (.cached e) (fun he => nomatch he)]
    exact hI.held i e d l he
  · exact hshape

/-- The sectors of a data cluster hold no FAT entry. -/
theorem sameFat_data {c : Nat} (hc : fat.InRange c) {j : Nat} (hj : j < fat.bpb.secPerClus) (s : State)
    (g : Sector → Sector) : SameFat fat s (s.setSector (firstSecOfClus fat c + j) g) :=
  ⟨rfl, rfl, fun _ hc' => fatEntry_dataWrite w s.disk hc'.2 (w.firstSec_data hc hj).1 _⟩

omit w in
theorem SameFat.refl (s : State) : SameFat fat s s := ⟨rfl, rfl, fun _ _ => rfl⟩

theorem within_zeroSectors {c : Nat} (hc : fat.InRange c) (n j : Nat) (hj : j + n = fat.bpb.secPerClus) :
    (zeroSectors n (firstSecOfClus fat c + j)).Within (fun _ => SameFat fat) IsPanic := by
  induction n generalizing j with
  | zero => trivial
  | succ n ih =>
    refine Prog.Within.bind (Prog.Within.change _ _ fun s => sameFat_data w hc (by omega) s _) fun _ => ?_
    by_cases hn : n = 0
    · subst hn
      trivial
    · have := (w.firstSec_data hc (show j + 1 < fat.bpb.secPerClus by omega)).2
      rw [u32_of_lt (show firstSecOfClus fat c + j + 1 < 2 ^ 32 by omega)]
      exact ih (j + 1) (by omega)

/-- `alloc_clus`: a free cluster becomes the process's own. -/
theorem keeps_allocClus (ht : t.Calm) :
    Keeps fat pid live own₀ i (allocClus fat) t fun c t' =>
      t' = { t with loose := [c] } ∧ fat.InRange c := by
  suffices hs : ∀ n k, k + n = fat.bpb.fatSz → Keeps fat pid live own₀ i (allocScan fat n k) t
      fun c t' => t' = { t with loose := [c] } ∧ fat.InRange c from hs _ 0 (Nat.zero_add _)
  intro n
  induction n with
  | zero =>
    intro k _
    exact Triple.stop trivial
  | succ n ih =>
    intro k hk
    have hsec : u32 (fat.bpb.rsvdSecCnt + k) = fat.bpb.rsvdSecCnt + k := fatSec_lt w (by omega)
    simp only [allocScan, hsec]
    apply keeps_act
    intro s T own s' hI hT hC hf
    have hA := hC.1
    simp only [Allocs, AllocFinds, hsec] at hA
    cases hfree : freeEntry fat (s.disk (fat.bpb.rsvdSecCnt + k)) with
    | none =>
      simp only [hfree] at hf ⊢
      cases hf
      refine ⟨t, own, ?_, ih (k + 1) (by omega)⟩
      subst hT
      exact Update.fatOnly hI rfl rfl hI.carved (fun _ _ => rfl) (hI.loose i) rfl rfl (hI.shape i)
    | some j =>
      simp only [hfree] at hf hA ⊢
      cases hf
      obtain ⟨hj, hzero⟩ := freeEntry_zero w hfree
      have h128 : fat.bpb.bytsPerSec / 4 = 128 := by rw [w.bytsPerSec]; rfl
      rw [h128] at hA ⊢
      have hq : (k * 128 + j) / 128 = k := by omega
      have hr : (k * 128 + j) % 128 = j := by omega
      rw [u32_of_lt (by have := w.clusters_lt; have := hA.2; omega)]
      have hloose : own (.process i) = [] := by
        rw [hI.loose i, hT]
        exact ht.loose
      have hdisk : (s.setSector (fat.bpb.rsvdSecCnt + k) (putWord32 (4 * j) (fat32Eoc + 7))).disk =
          setFat fat (k * 128 + j) (fat32Eoc + 7) s.disk := by
        rw [setFat, hq, hr]
        rfl
      have hset : ∀ c', fatEntry fat (setFat fat (k * 128 + j) (fat32Eoc + 7) s.disk) c' =
          if c' = k * 128 + j then fat32Eoc + 7 else fatEntry fat s.disk c' :=
        fun c' => fatEntry_fatWrite s.disk (by decide)
      refine ⟨{ t with loose := [k * 128 + j] }, Function.update own (.process i) [k * 128 + j], ?_, ?_⟩
      · subst hT
        refine Update.fatOnly hI ?_ ?_ ?_ ?_ ?_ ?_ ?_ ?_
        · rfl
        · rfl
        · rw [hdisk]
          apply hI.carved.alloc not_inRange_zero not_eoc_zero hloose hA
          · rw [fatEntry, hq, hr]
            exact hzero
          · rw [hset, if_pos rfl]
            exact Nat.le_add_right ..
          · intro d _ hd
            rw [hset, if_neg hd]
        · intro k' hk'
          exact Function.update_of_ne hk' ..
        · exact Function.update_self ..
        · rfl
        · rfl
        · unfold Token.Shape
          rw [ht.phase]
          exact ⟨Nat.le_refl _, ht.firsts⟩
      · have hzero := within_zeroSectors w hA fat.bpb.secPerClus 0 (Nat.zero_add _)
        rw [Nat.add_zero] at hzero
        apply Triple.bind (keeps_within hzero)
        intro _ t' ht'
        exact Triple.ret ⟨ht', hA⟩

omit w [DecidableEq ι] in
/-- A section that changes the dirent or the chain of an entry the process holds. -/
theorem Update.mine {s s' : State} {T : ι → Token} {own own' : Owner ι → List Nat}
    (hI : Inv fat pid live own₀ s T own) (ht : (T i).held e = some (d, l)) {t' : Token}
    {f : Dirent → Dirent} (hdirents : s'.dirents = (s.setDirent e f).dirents)
    (hlock : (f d).lock = d.lock) (hcarved : Carved fat s'.disk own')
    (hprocess : ∀ j, j ≠ i → own' (.process j) = own (.process j)) (hloose : own' (.process i) = t'.loose)
    (haside : Aside s s' own own') (hcached : ∀ e', e' ≠ e → own' (.cached e') = own (.cached e'))
    (hheld : t'.held = ((T i).hold e (f d) (own' (.cached e))).held)
    (hhandles : t'.handles = (T i).handles) (hshape : t'.Shape) :
    Update fat (pid i) i s s' own own' (T i) t' := by
  obtain ⟨h1, h2, h3⟩ := hI.held i e d l ht
  apply Update.steady
  · intro e'
    rw [hheld]
    exact Token.hold_held_none ht e'
  · exact hhandles
  · exact hcarved
  · exact hprocess
  · exact hloose
  · exact haside
  · intro e' he'
    have hne : e' ≠ e := by
      rintro rfl
      rw [ht] at he'
      cases he'
    rw [hdirents, State.setDirent_ne _ _ _ _ hne]
    exact ⟨rfl, hcached e' hne⟩
  · intro e' d' l' he'
    rw [hheld] at he'
    by_cases hne : e' = e
    · subst hne
      rw [Token.hold_held_same] at he'
      cases he'
      rw [hdirents, State.setDirent_same, h1]
      exact ⟨rfl, rfl, hlock.trans h3⟩
    · rw [Token.hold_held_ne _ _ _ hne] at he'
      rw [hdirents, State.setDirent_ne _ _ _ _ hne, hcached e' hne]
      exact hI.held i e' d' l' he'
  · exact hshape

theorem run_writeFat_eq {c : Nat} (hc : fat.InRange c) (v : Nat) :
    writeFat fat c v = .act .plain (fun s => some { s with disk := setFat fat c v s.disk })
      fun _ => .ret 0 := by
  have hu : u32 (fat.dataClusCnt + 1) = fat.dataClusCnt + 1 :=
    u32_of_lt (by have := w.clusters_lt; omega)
  have h2 : ¬ c > u32 (fat.dataClusCnt + 1) := by have := hc.2; omega
  rw [writeFat, if_neg h2, (w.fatSec hc.2).1, w.fatOffset hc.2]
  rfl

/-- The cluster taken is linked behind the last one of a held entry's chain. -/
theorem keeps_link (ht : t.Holding fat e d l) (hphase : t.phase = .steady) {j c new : Nat}
    (hc : l[j]? = some c) (hj : j + 1 = l.length) (hloose : t.loose = [new]) (hnew : fat.InRange new)
    (hfirsts : t.Firsts none) :
    Keeps fat pid live own₀ i (writeFat fat c new) t fun _ t' =>
      t' = { t.hold e d (l ++ [new]) with loose := [] } := by
  have hcr := ht.inRange c (List.mem_of_getElem? hc)
  have hne : l ≠ [] := by rintro rfl; simp at hc
  have hhead : d.firstClus = (l ++ [new]).headD 0 := by
    obtain ⟨c₀, rest, rfl⟩ := List.exists_cons_of_ne_nil hne
    exact ht.holds.first
  rw [run_writeFat_eq w hcr]
  apply keeps_act
  intro s T own s' hI hT _ hf
  cases hf
  subst hT
  obtain ⟨h1, h2, h3⟩ := hI.held i e d l ht.held
  refine ⟨_, Function.update (Function.update own (.cached e) (own (.cached e) ++ [new])) (.process i) [],
    ?_, rfl⟩
  have hown : ∀ k, k ≠ .process i → k ≠ .cached e →
      Function.update (Function.update own (.cached e) (own (.cached e) ++ [new])) (.process i) [] k = own k := by
    intro k hk hk'
    rw [Function.update_of_ne hk, Function.update_of_ne hk']
  have hcached : Function.update (Function.update own (.cached e) (own (.cached e) ++ [new]))
      (.process i) [] (.cached e) = l ++ [new] := by
    rw [Function.update_of_ne (Owner.cached_ne_process e i), Function.update_self, h2]
  refine Update.mine hI ht.held (f := id) ?_ ?_ ?_ ?_ ?_ ?_ ?_ ?_ ?_ ?_
  · exact (congrArg State.dirents (s.setDirent_eq_self e id rfl)).symm
  · rfl
  · apply hI.carved.link (Owner.cached_ne_process e i) (by rw [h2]; exact hc) (by rw [h2]; exact hj)
    · rw [hI.loose i]
      exact hloose
    · intro c' _
      exact fatEntry_fatWrite s.disk (by have := w.clusters_lt; have := hnew.2; omega)
  · intro j hji
    exact hown _ (fun he => hji (Owner.process.inj he)) (Ne.symm (Owner.cached_ne_process e j))
  · exact Function.update_self ..
  · exact .same rfl fun k hk hk' => hown k (hk i) (hk' e)
  · intro e' hne'
    exact hown _ (Owner.cached_ne_process e' i) (fun he => hne' (Owner.cached.inj he))
  · rw [hcached]
    rfl
  · rfl
  · unfold Token.Shape
    rw [show ({ (T i).hold e d (l ++ [new]) with loose := [] } : Token).phase = .steady from hphase]
    exact ⟨Nat.zero_le _, hfirsts.hold fun _ => hhead⟩

omit w in
/-- The cluster taken becomes the first one of a held entry without a chain. -/
theorem keeps_first (ht : t.held e = some (d, [])) (hphase : t.phase = .steady) {new : Nat}
    (hloose : t.loose = [new]) (hfirsts : t.Firsts none) {f : Dirent → Dirent}
    (hlock : (f d).lock = d.lock) (hfirst : (f d).firstClus = new) :
    Keeps fat pid live own₀ i (assign e f) t fun _ t' =>
      t' = { t.hold e (f d) [new] with loose := [] } := by
  apply keeps_act
  intro s T own s' hI hT _ hf
  cases hf
  subst hT
  obtain ⟨h1, h2, h3⟩ := hI.held i e d [] ht
  refine ⟨_, Function.update (Function.update own (.process i) []) (.cached e) (own (.process i)), ?_, rfl⟩
  have hown : ∀ k, k ≠ .process i → k ≠ .cached e →
      Function.update (Function.update own (.process i) []) (.cached e) (own (.process i)) k = own k := by
    intro k hk hk'
    rw [Function.update_of_ne hk', Function.update_of_ne hk]
  refine Update.mine hI ht rfl hlock ?_ ?_ ?_ ?_ ?_ ?_ ?_ ?_
  · exact hI.carved.move h2
  · intro j hji
    exact hown _ (fun he => hji (Owner.process.inj he)) (Ne.symm (Owner.cached_ne_process e j))
  · rw [Function.update_of_ne (Ne.symm (Owner.cached_ne_process e i)), Function.update_self]
  · exact .same rfl fun k hk hk' => hown k (hk i) (hk' e)
  · intro e' hne'
    exact hown _ (Owner.cached_ne_process e' i) (fun he => hne' (Owner.cached.inj he))
  · rw [Function.update_self, hI.loose i, hloose]
  · rfl
  · unfold Token.Shape
    rw [show ({ (T i).hold e (f d) [new] with loose := [] } : Token).phase = .steady from hphase]
    exact ⟨Nat.zero_le _, hfirsts.hold fun _ => hfirst⟩

/-! ### Sections of a truncation -/

omit w in
/-- The clusters of a held entry become the process's own, to be freed. -/
theorem keeps_truncStart (ht : t.Calm) (hh : t.held e = some (d, l)) (hfirst : d.firstClus = l.headD 0) :
    Keeps fat pid live own₀ i (dirent e) t fun d' t' =>
      d' = d ∧ l.Nodup ∧ t' = { t.hold e d [] with loose := l, phase := .truncating e [] } := by
  apply keeps_act
  intro s T own s' hI hT _ hf
  cases hf
  subst hT
  obtain ⟨h1, h2, h3⟩ := hI.held i e d l hh
  have hown : ∀ k, k ≠ .process i → k ≠ .cached e →
      Function.update (Function.update own (.cached e) []) (.process i) (own (.cached e)) k = own k := by
    intro k hk hk'
    rw [Function.update_of_ne hk, Function.update_of_ne hk']
  have hcached : Function.update (Function.update own (.cached e) []) (.process i) (own (.cached e))
      (.cached e) = [] := by
    rw [Function.update_of_ne (Owner.cached_ne_process e i), Function.update_self]
  refine ⟨_, Function.update (Function.update own (.cached e) []) (.process i) (own (.cached e)), ?_, h1,
    h2 ▸ hI.carved.nodup (.cached e), rfl⟩
  refine Update.mine hI hh (f := id) ?_ ?_ ?_ ?_ ?_ ?_ ?_ ?_ ?_ ?_
  · exact (congrArg State.dirents (s.setDirent_eq_self e id rfl)).symm
  · rfl
  · apply hI.carved.move
    rw [hI.loose i]
    exact ht.loose
  · intro j hji
    exact hown _ (fun he => hji (Owner.process.inj he)) (Ne.symm (Owner.cached_ne_process e j))
  · rw [Function.update_self, h2]
  · exact .same rfl fun k hk hk' => hown k (hk i) (hk' e)
  · intro e' hne'
    exact hown _ (Owner.cached_ne_process e' i) (fun he => hne' (Owner.cached.inj he))
  · rw [hcached]
    rfl
  · rfl
  · refine ⟨⟨d, Token.hold_held_same .., hfirst⟩, ?_⟩
    intro e' d' l' hne' he'
    rw [show ({ (T i).hold e d [] with loose := l, phase := .truncating e [] } : Token).held e' =
      (T i).held e' from Token.hold_held_ne _ _ _ fun h => hne' (congrArg some h)] at he'
    exact ht.firsts e' d' l' (fun h => nomatch h) he'

/-- The first of the clusters to be freed. -/
theorem keeps_freeClus {freed rest : List Nat} {c : Nat} (hc : fat.InRange c)
    (hloose : t.loose = c :: rest) (hphase : t.phase = .truncating e freed)
    (hh : t.held e = some (d, [])) (hfirst : d.firstClus = (freed ++ t.loose).headD 0)
    (hfirsts : t.Firsts (some e)) :
    Keeps fat pid live own₀ i (freeClus fat c) t fun _ t' =>
      t' = { t with loose := rest, phase := .truncating e (freed ++ [c]) } := by
  rw [freeClus, run_writeFat_eq w hc]
  apply keeps_act
  intro s T own s' hI hT _ hf
  cases hf
  subst hT
  have hp : own (.process i) = c :: rest := (hI.loose i).trans hloose
  refine ⟨_, Function.update own (.process i) rest, ?_, rfl⟩
  refine Update.fatOnly hI ?_ ?_ ?_ ?_ ?_ ?_ ?_ ?_
  · rfl
  · rfl
  · have hset : ∀ c', fatEntry fat (setFat fat c 0 s.disk) c' = if c' = c then 0 else fatEntry fat s.disk c' :=
      fun c' => fatEntry_fatWrite s.disk (by decide)
    apply hI.carved.freeHead hp
    · exact (hset c).trans (if_pos rfl)
    · intro c' _ hne
      exact (hset c').trans (if_neg hne)
  · intro k hk
    exact Function.update_of_ne hk ..
  · exact Function.update_self ..
  · rfl
  · rfl
  · refine ⟨⟨d, hh, ?_⟩, hfirsts⟩
    rw [hfirst, hloose, List.append_assoc]
    rfl

omit w in
/-- The entry has no cluster left. -/
theorem keeps_truncEnd {freed : List Nat} (hloose : t.loose = []) (hphase : t.phase = .truncating e freed)
    (hh : t.held e = some (d, [])) (hfirsts : t.Firsts (some e)) {f : Dirent → Dirent}
    (hlock : (f d).lock = d.lock) (hfirst : (f d).firstClus = 0) :
    Keeps fat pid live own₀ i (assign e f) t fun _ t' =>
      t' = { t.hold e (f d) [] with phase := .steady } := by
  apply keeps_act
  intro s T own s' hI hT _ hf
  cases hf
  subst hT
  obtain ⟨h1, h2, h3⟩ := hI.held i e d [] hh
  refine ⟨_, own, ?_, rfl⟩
  refine Update.mine hI hh ?_ hlock ?_ ?_ ?_ ?_ ?_ ?_ ?_ ?_
  · rfl
  · exact hI.carved
  · exact fun _ _ => rfl
  · exact hI.loose i
  · exact .same rfl fun _ _ _ => rfl
  · exact fun _ _ => rfl
  · rw [h2]
  · rfl
  · refine ⟨?_, ?_⟩
    · show (T i).loose.length ≤ 1
      rw [hloose]
      exact Nat.zero_le _
    · intro e' d' l' _ he'
      by_cases hne : e' = e
      · subst hne
        rw [show ({ (T i).hold e' (f d) [] with phase := .steady } : Token).held e' = some (f d, []) from
          Token.hold_held_same ..] at he'
        cases he'
        exact hfirst
      · rw [show ({ (T i).hold e (f d) [] with phase := .steady } : Token).held e' = (T i).held e' from
          Token.hold_held_ne _ _ _ hne] at he'
        exact hfirsts e' d' l' (fun h => hne (Option.some.inj h)) he'

/-! ### Sections on locks -/

omit w in
/-- `acquiresleep` of an entry that the process does not hold. -/
theorem keeps_acquire (ph : Phase) (R : Dirent → List Nat → Prop)
    (hR : ∀ s T own, Inv fat pid live own₀ s T own → T i = t → (s.dirents e).lock = none →
      R (s.dirents e) (own (.cached e)))
    (hshape : ∀ d l, R d l → ({ t.hold e { d with lock := some (pid i) } l with phase := ph } : Token).Shape) :
    Keeps fat pid live own₀ i (acquiresleep (pid i) e) t fun _ t' => ∃ d l,
      t' = { t.hold e { d with lock := some (pid i) } l with phase := ph } ∧ R d l ∧ t.held e = none ∧
      ∀ c ∈ l, fat.InRange c := by
  apply keeps_act
  intro s T own s' hI hT _ hf
  by_cases hlock : (s.dirents e).lock = none
  · rw [if_pos hlock] at hf
    cases hf
    have hr := hR s T own hI hT hlock
    subst hT
    have hnone : (T i).held e = none := by
      cases hc : (T i).held e with
      | none => rfl
      | some x =>
        obtain ⟨h1, _, h3⟩ := hI.held i e x.1 x.2 hc
        rw [h1, h3] at hlock
        cases hlock
    refine ⟨_, own, ?_, s.dirents e, own (.cached e), rfl, hr, hnone, hI.carved.cells _⟩
    constructor
    · exact hI.carved
    · exact fun _ _ => rfl
    · exact hI.loose i
    · exact .same rfl fun _ _ _ => rfl
    · intro e' _ he'
      have hne : e' ≠ e := by
        rintro rfl
        rw [show ({ (T i).hold e' _ _ with phase := ph } : Token).held e' = some _ from
          Token.hold_held_same ..] at he'
        cases he'
      rw [State.setDirent_ne _ _ _ _ hne]
      exact ⟨rfl, rfl⟩
    · intro e' d' l' he'
      by_cases hne : e' = e
      · subst hne
        rw [show ({ (T i).hold e' _ _ with phase := ph } : Token).held e' = some _ from
          Token.hold_held_same ..] at he'
        cases he'
        exact ⟨State.setDirent_same .., rfl, rfl⟩
      · rw [show ({ (T i).hold e _ _ with phase := ph } : Token).held e' = (T i).held e' from
          Token.hold_held_ne _ _ _ hne] at he'
        rw [State.setDirent_ne _ _ _ _ hne]
        exact hI.held i e' d' l' he'
    · intro e' he' hne'
      by_cases hne : e' = e
      · rw [hne]
        exact hlock
      · exact absurd he' fun h => hne' ((Token.hold_held_ne _ _ _ hne).trans h)
    · intro e' hne' he'
      by_cases hne : e' = e
      · rw [hne] at hne'
        exact absurd hnone hne'
      · exact absurd ((Token.hold_held_ne (T i) _ _ hne).symm.trans he') hne'
    · exact fun _ h => h
    · exact fun _ h => .inl h
    · exact hshape _ _ hr
  · rw [if_neg hlock] at hf
    cases hf

omit w in
/-- `acquiresleep` of an entry the process has a handle on. -/
theorem keeps_elock (ht : t.Calm) (hh : t.handles e) :
    Keeps fat pid live own₀ i (elock (pid i) (some e)) t fun _ t' => ∃ d l, t' = t.hold e d l ∧
      t'.Calm ∧ t'.Holding fat e d l ∧ Ready d l ∧ t.held e = none := by
  apply Triple.bind keeps_dirent_any
  intro d₀ t₀ ht₀
  subst ht₀
  split_ifs
  · exact Triple.stop trivial
  · apply Triple.mono (keeps_acquire .steady Ready _ _)
    · intro _ t' h
      obtain ⟨d, l, rfl, hr, hnone, hin⟩ := h
      have hholds : Holds { d with lock := some (pid i) } l := ⟨hr.holds.first, hr.holds.cursor⟩
      have heq : ({ t₀.hold e { d with lock := some (pid i) } l with phase := .steady } : Token) =
          t₀.hold e { d with lock := some (pid i) } l := by
        rw [← ht.phase]
        rfl
      rw [heq]
      exact ⟨_, l, rfl, ht.hold hholds, ⟨Token.hold_held_same .., hholds, hin⟩,
        ⟨hholds, hr.directory⟩, hnone⟩
    · intro s T own hI hT hlock
      subst hT
      exact hI.ready i e hh hlock
    · intro d l hr
      refine ⟨?_, ht.firsts.hold fun _ => hr.holds.first⟩
      show t₀.loose.length ≤ 1
      rw [ht.loose]
      exact Nat.zero_le _

omit w in
/-- `acquiresleep` of a slot that is to become another file. -/
theorem keeps_elockFresh (ht : t.Calm) :
    Keeps fat pid live own₀ i (elock (pid i) (some e)) t fun _ t' => ∃ d l,
      t' = { t.hold e d l with phase := .fresh e } ∧ t.held e = none := by
  apply Triple.bind keeps_dirent_any
  intro d₀ t₀ ht₀
  subst ht₀
  split_ifs
  · exact Triple.stop trivial
  · apply Triple.mono (keeps_acquire (.fresh e) (fun d l => ∀ c, l.head? = some c → d.firstClus = c) _ _)
    · intro _ t' h
      obtain ⟨d, l, rfl, _, hnone, _⟩ := h
      exact ⟨_, l, rfl, hnone⟩
    · exact fun s T own hI _ _ => hI.cached e
    · intro d l hr
      refine ⟨ht.loose, ?_, ?_⟩
      · intro e' d' l' hne he'
        rw [show ({ t₀.hold e _ l with phase := .fresh e } : Token).held e' = t₀.held e' from
          Token.hold_held_ne _ _ _ fun h => hne (congrArg some h)] at he'
        exact ht.firsts e' d' l' (fun h => by cases h) he'
      · intro d' l' c he' hc
        rw [show ({ t₀.hold e _ l with phase := .fresh e } : Token).held e = some _ from Token.hold_held_same ..] at he'
        cases he'
        exact hr c hc

omit w in
/-- The slot is given the fields of a file without clusters; the chain of the file it
was stays with that file. -/
theorem keeps_setup (ht : t.Calm) {l₀ : List Nat} {d₀ : Dirent} {f : Dirent → Dirent}
    (hlock : (f d₀).lock = d₀.lock) (hfirst : (f d₀).firstClus = 0) :
    Keeps fat pid live own₀ i (recycle e f) { t.hold e d₀ l₀ with phase := .fresh e } fun _ t' =>
      t' = t.hold e (f d₀) [] := by
  apply keeps_act
  intro s T own s' hI hT _ hf
  cases hf
  have hh : (T i).held e = some (d₀, l₀) := by
    rw [hT]
    exact Token.hold_held_same ..
  obtain ⟨h1, h2, h3⟩ := hI.held i e d₀ l₀ hh
  obtain ⟨n, hn⟩ : ∃ n, n = s.retired.length := ⟨_, rfl⟩
  have hnil : own (.retired n) = [] := by
    rw [← List.head?_eq_none_iff, Option.eq_none_iff_forall_ne_some]
    intro c hc
    have hget := hI.retired n c hc
    rw [hn, List.getElem?_eq_none_iff.mpr (Nat.le_refl _)] at hget
    cases hget
  have hown : ∀ k, k ≠ .retired n → k ≠ .cached e →
      Function.update (Function.update own (.cached e) []) (.retired n) (own (.cached e)) k = own k := by
    intro k hk hk'
    rw [Function.update_of_ne hk, Function.update_of_ne hk']
  have hcached : Function.update (Function.update own (.cached e) []) (.retired n) (own (.cached e))
      (.cached e) = [] := by
    rw [Function.update_of_ne (Ne.symm (Owner.retired_ne_cached n e)), Function.update_self]
  refine ⟨_, Function.update (Function.update own (.cached e) []) (.retired n) (own (.cached e)), ?_, rfl⟩
  rw [← hT]
  refine Update.mine hI hh rfl hlock ?_ ?_ ?_ ?_ ?_ ?_ ?_ ?_
  · exact hI.carved.move hnil
  · intro j _
    exact hown _ (Ne.symm (Owner.retired_ne_process n j)) (Ne.symm (Owner.cached_ne_process e j))
  · rw [hown _ (Ne.symm (Owner.retired_ne_process n i)) (Ne.symm (Owner.cached_ne_process e i)), hI.loose i, hT]
    rfl
  · refine ⟨fun k => hown _ (Ne.symm (Owner.retired_ne_other n k)) (Owner.other_ne_cached k e), List.prefix_append .., fun m => ?_⟩
    by_cases hm : m = n
    · -- the file that loses its slot, noted with the cluster its entry has had
      subst hm
      rw [Function.update_self]
      refine .inr fun c hc => ?_
      rw [← hI.cached e c hc, hn]
      exact List.getElem?_concat_length
    · exact .inl (hown _ (fun h => hm (Owner.retired.inj h)) (Owner.retired_ne_cached m e))
  · intro e' hne'
    exact hown _ (Ne.symm (Owner.retired_ne_cached n e')) (fun he => hne' (Owner.cached.inj he))
  · rw [hcached, hT]
    exact (congrArg Token.held (t.hold_hold e d₀ (f d₀) l₀ [])).symm
  · rw [hT]
    rfl
  · have hc : (t.hold e (f d₀) []).Calm := ⟨ht.phase, ht.loose, ht.firsts.hold fun _ => hfirst⟩
    exact hc.shape

omit w in
/-- `eunlock` of an entry that is ready for others; the process may have a handle on it
from now on. -/
theorem keeps_eunlock (ht : t.Calm) (hh : t.held e = some (d, l)) (hr : Ready d l) (handles : Ptr → Prop)
    (hsub : ∀ e', t.handles e' → handles e') (hsup : ∀ e', handles e' → t.handles e' ∨ e' = e) :
    Keeps fat pid live own₀ i (eunlock (pid i) (some e)) t fun _ t' =>
      t' = t.drop e handles ∧ t'.Calm := by
  have hcalm : (t.drop e handles).Calm := by
    refine ⟨ht.phase, ht.loose, ?_⟩
    intro e' d' l' _ he'
    have hne : e' ≠ e := by
      rintro rfl
      rw [Token.drop_held_same] at he'
      cases he'
    rw [Token.drop_held_ne _ _ hne] at he'
    exact ht.firsts e' d' l' (fun h => nomatch h) he'
  apply Triple.bind (keeps_dirent hh)
  intro d₁ t₁ h₁
  obtain ⟨rfl, rfl⟩ := h₁
  split_ifs
  · exact Triple.stop trivial
  · apply keeps_act
    intro s T own s' hI hT _ hf
    cases hf
    subst hT
    obtain ⟨h1, h2, h3⟩ := hI.held i e d₁ l hh
    refine ⟨(T i).drop e handles, own, ?_, rfl, hcalm⟩
    constructor
    · exact hI.carved
    · exact fun _ _ => rfl
    · exact hI.loose i
    · exact .same rfl fun _ _ _ => rfl
    · intro e' he' _
      have hne : e' ≠ e := by
        rintro rfl
        rw [hh] at he'
        cases he'
      rw [State.setDirent_ne _ _ _ _ hne]
      exact ⟨rfl, rfl⟩
    · intro e' d' l' he'
      have hne : e' ≠ e := by
        rintro rfl
        rw [Token.drop_held_same] at he'
        cases he'
      rw [Token.drop_held_ne _ _ hne] at he'
      rw [State.setDirent_ne _ _ _ _ hne]
      exact hI.held i e' d' l' he'
    · intro e' he' hne'
      by_cases hne : e' = e
      · subst hne
        exact absurd (Token.drop_held_same ..) hne'
      · rw [Token.drop_held_ne _ _ hne] at hne'
        exact absurd he' hne'
    · intro e' hne' he'
      have he : e' = e := by
        by_contra hne
        rw [Token.drop_held_ne _ _ hne] at he'
        exact hne' he'
      subst he
      rw [State.setDirent_same, h1, h2]
      exact ⟨rfl, ⟨hr.holds.first, hr.holds.cursor⟩, hr.directory⟩
    · exact hsub
    · intro e' he'
      rcases hsup e' he' with h | h
      · exact .inl h
      · rw [h, hh]
        exact .inr (Option.some_ne_none _)
    · exact hcalm.shape

end Sections

end Farron
